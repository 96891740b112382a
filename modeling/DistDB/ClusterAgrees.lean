import DistDB.AgreementLogs
import DistDB.ClusterModel
import DistDB.ElectionRuns

/-!
A cluster against the agreement on its log (`Tracks`): each node is a server of the agreement,
and every message in flight tells of something that is in its history.

As the history only grows, what a message tells stays true however long it is on its way. So a
function of one node has to be looked at for this node only (`Tracks.setNode`).
-/

namespace DistDB.ClusterModel

open NodeModel NodeModel.Node Elections Agreement Config FullLog TermLog
open Consensus (Goes Committed)

variable {σ : Type}

/-- The candidate has stood with a log of which the request tells the last entry. -/
def Stood (a : History) (v : NodeId) (req : RequestVoteRequest) : Prop :=
  ∃ l, a.ballot v req.term l ∧ req.lastLogIndex = l.length ∧
    req.lastLogTerm = termOf l l.length

def Rpc.term : Rpc → ℕ
  | .append req => req.term
  | .snapshot req _ => req.term

/-- The entries of a request are the rest of some part of the log of its leader. -/
def Entries (a : History) (req : AppendEntriesRequest) : Prop :=
  ∃ m, m <+: a.lead req.term ∧ req.prevLogIndex ≤ m.length ∧
    req.prevLogTerm = termOf m req.prevLogIndex ∧ req.entries = m.drop req.prevLogIndex ∧
    Committed a req.term m req.leaderCommit

/-- A snapshot covers committed entries, and comes with the members that they put in force. -/
structure Covers (base : Finset NodeId) (a : History) (req : InstallSnapshotRequest)
    (covered : List LogEntry) : Prop where
  index : covered.length = req.lastIncludedIndex
  term : termOf covered covered.length = req.lastIncludedTerm
  committed : Committed a req.term covered covered.length
  members : req.membership.keys = config base covered

/-- A call is one of the leader of its term. -/
structure Sent (base : Finset NodeId) (a : History) (c : Call) : Prop where
  other : c.target ≠ c.caller
  won : ∃ E, a.election c.rpc.term = some E ∧ E.winner = c.caller
  entries : ∀ req, c.rpc = .append req → Entries a req
  covers : ∀ req covered, c.rpc = .snapshot req covered → Covers base a req covered

/-- A success tells what the target has held. -/
structure Answered (a : History) (c : Call) (ans : Answer) : Prop where
  append : ∀ req resp, c.rpc = .append req → ans = .append resp → resp.success →
    ∀ j, 0 < j → j ≤ req.prevLogIndex + req.entries.length → a.ack c.target req.term j
  snapshot : ∀ req covered resp, c.rpc = .snapshot req covered → ans = .snapshot resp →
    req.term < resp.term ∨ ∀ j, 0 < j → j ≤ req.lastIncludedIndex →
      a.ack c.target req.term j

/-- The entry of a proposal is in the log of the leader of its term. -/
def Proposed (a : History) (p : Proposal) : Prop :=
  0 < p.index ∧ (a.lead p.term)[p.index - 1]? = some ⟨p.index, p.term, p.command⟩

section Monotone

variable {base : Finset NodeId} {a a' : History} {x : NodeId}

lemma Stood.mono {v : NodeId} {req : RequestVoteRequest} (h : Stood a v req)
    (hgoes : Goes base x a a') : Stood a' v req :=
  let ⟨l, hl, hrest⟩ := h
  ⟨l, hgoes.ballot hl, hrest⟩

lemma Entries.mono {req : AppendEntriesRequest} (h : Entries a req) (hinv : Consensus.Inv base a)
    (hgoes : Goes base x a a') : Entries a' req :=
  let ⟨m, hm, hprev, hterm, hentries, hcommitted⟩ := h
  ⟨m, hm.trans (hgoes.lead _), hprev, hterm, hentries, hcommitted.mono hinv hgoes le_rfl⟩

lemma Covers.mono {req : InstallSnapshotRequest} {covered : List LogEntry}
    (h : Covers base a req covered) (hinv : Consensus.Inv base a) (hgoes : Goes base x a a') :
    Covers base a' req covered :=
  ⟨h.index, h.term, h.committed.mono hinv hgoes le_rfl, h.members⟩

lemma Sent.mono {c : Call} (h : Sent base a c) (hinv : Consensus.Inv base a)
    (hgoes : Goes base x a a') : Sent base a' c where
  other := h.other
  won := let ⟨E, hE, hwinner⟩ := h.won; ⟨E, hgoes.election hE, hwinner⟩
  entries := fun req hreq => (h.entries req hreq).mono hinv hgoes
  covers := fun req covered hreq => (h.covers req covered hreq).mono hinv hgoes

lemma Answered.mono {c : Call} {ans : Answer} (h : Answered a c ans) (hgoes : Goes base x a a') :
    Answered a' c ans where
  append := fun req resp hreq hans hsuccess j hpos hj =>
    hgoes.ack (h.append req resp hreq hans hsuccess j hpos hj)
  snapshot := fun req covered resp hreq hans =>
    (h.snapshot req covered resp hreq hans).imp_right fun hacks j hpos hj =>
      hgoes.ack (hacks j hpos hj)

lemma Proposed.mono {p : Proposal} (h : Proposed a p) (hgoes : Goes base x a a') :
    Proposed a' p := by
  obtain ⟨hpos, hget⟩ := h
  obtain ⟨r, hr⟩ := hgoes.lead p.term
  refine ⟨hpos, ?_⟩
  rw [← hr, List.getElem?_append_left (List.getElem?_eq_some_iff.mp hget).1]
  exact hget

end Monotone

/-- The agreement tracks the cluster. -/
structure Tracks (base : Finset NodeId) (Q : History → σ → Prop) (a : History)
    (s : Cluster σ) :
    Prop where
  inv : Consensus.Inv base a
  server : ∀ v, Server base Q a v (s.whole v) (s.node v)
  saved : ∀ {v st r c}, (v, st, r) ∈ s.group.past → st.votedFor = some c →
    ∃ m, a.vote v st.currentTerm c m
  voted : ∀ {v t c m}, a.vote v t c m → Voted s.group v t c
  campaign : ∀ {v k}, s.group.campaigns v = some k → Stood a v k.request
  voteCall : ∀ {c}, c ∈ s.group.voteCalls → Stood a c.caller c.request
  asked : ∀ {c}, c ∈ s.group.voteCalls → (s.node c.caller).role = .kCandidate →
    c.request.term = (s.node c.caller).state.currentTerm →
      c.target ∈ (s.node c.caller).peers.keys
  round : ∀ {v p}, (v, p) ∈ s.rounds → p ≠ v
  send : ∀ {v p t}, (v, p, t) ∈ s.sending → p ≠ v
  call : ∀ {c}, c ∈ s.calls → Sent base a c
  answer : ∀ {k ans}, (k, ans) ∈ s.answers → ∃ c, s.calls[k]? = some c ∧ Answered a c ans
  install : ∀ {v i}, s.installs v = some i →
    (∃ c, s.calls[i.call]? = some c ∧ c.target = v ∧
      c.rpc = .snapshot i.request i.covered) ∧
    i.request.term ≤ (s.node v).state.currentTerm ∧
    ((s.node v).role ≠ .kFollower → i.request.term < (s.node v).state.currentTerm)
  proposal : ∀ {p}, p ∈ s.proposals → Proposed a p

namespace Tracks

variable {base : Finset NodeId} {Q : History → σ → Prop} {cb : Callbacks σ} {a a' : History}
  {s s' : Cluster σ} {v : NodeId} {n : Node σ} {l : List LogEntry}

/-- **A function of one node** and what it does in the agreement. -/
theorem setNode (h : Tracks base Q a s) (hw : Watches base cb Q) (hd : Does base Q a a' v l n)
    (hinv : Consensus.Inv base a')
    (hrole : n.role ≠ .kFollower → n.state.currentTerm = (s.node v).state.currentTerm →
      (s.node v).role ≠ .kFollower)
    (hasked : n.role = .kCandidate → ∀ c ∈ s.group.voteCalls, c.caller = v →
      c.request.term = n.state.currentTerm → c.target ∈ n.peers.keys) :
    Tracks base Q a' (s.setNode v n l) := by
  have hself : (s.setNode v n l).node v = n := Function.update_self ..
  have hother : ∀ w, w ≠ v → (s.setNode v n l).node w = s.node w := fun w hwv =>
    Function.update_of_ne hwv ..
  have hwhole : ∀ w, w ≠ v → (s.setNode v n l).whole w = s.whole w := fun w hwv =>
    Function.update_of_ne hwv ..
  exact {
    inv := hinv
    server := fun w => by
      by_cases hwv : w = v
      · subst hwv
        rw [hself, show (s.setNode w n l).whole w = l from Function.update_self ..]
        exact hd.server
      · rw [hother w hwv, hwhole w hwv]
        obtain ⟨hagrees, hterm, hlog, hkept, -⟩ := h.server w
        exact ⟨hagrees.goes hw h.inv hd.goes fun _ hv => absurd hv.symm hwv,
          (hd.goes.term_other hwv).trans hterm, (hd.goes.log_other hwv).trans hlog,
          fun c hc => let ⟨m, hm⟩ := hkept c hc; ⟨m, hd.goes.vote hm⟩, hd.server.proper⟩
    saved := fun {w st r c} hmem hc => by
      rcases List.mem_cons.mp hmem with heq | hmem
      · simp only [Prod.mk.injEq] at heq
        obtain ⟨rfl, rfl, -⟩ := heq
        exact hd.server.kept c hc
      · obtain ⟨m, hm⟩ := h.saved hmem hc
        exact ⟨m, hd.goes.vote hm⟩
    voted := fun {w t c m} hvote => by
      by_cases hwv : w = v
      · subst hwv
        rcases hd.voted hvote with hold | hstate
        · exact (h.voted hold).setNode n
        · exact ⟨n.role, List.mem_cons.mpr (.inl (by rw [hstate]))⟩
      · exact (h.voted (hd.goes.vote_other hwv hvote)).setNode n
    campaign := fun hk => (h.campaign hk).mono hd.goes
    voteCall := fun hc => (h.voteCall hc).mono hd.goes
    asked := fun {c} hc => by
      by_cases hcv : c.caller = v
      · rw [hcv, hself]
        exact fun hcandidate hterm => hasked hcandidate c hc hcv hterm
      · rw [hother _ hcv]
        exact h.asked hc
    round := h.round
    send := h.send
    call := fun hc => (h.call hc).mono h.inv hd.goes
    answer := fun hans =>
      let ⟨c, hc, hanswered⟩ := h.answer hans
      ⟨c, hc, hanswered.mono hd.goes⟩
    install := fun {w i} hi => by
      obtain ⟨hcall, hle, hlow⟩ := h.install hi
      by_cases hwv : w = v
      · subst hwv
        have hterm := hd.goes.term w
        rw [(h.server w).term, hd.server.term] at hterm
        rw [hself]
        -- whoever competes does so in a later term than that of its install
        refine ⟨hcall, hle.trans hterm, fun hcompetes => ?_⟩
        rcases Nat.lt_or_eq_of_le hterm with hlt | heq
        · exact hle.trans_lt hlt
        · exact heq ▸ hlow (hrole hcompetes heq.symm)
      · rw [hother w hwv]
        exact ⟨hcall, hle, hlow⟩
    proposal := fun hp => (h.proposal hp).mono hd.goes }

lemma setNode_quiet (h : Tracks base Q a s) (hw : Watches base cb Q) (hd : Does base Q a a' v l n)
    (hinv : Consensus.Inv base a') (hquiet : Quiet (s.node v) n)
    (hconfig : n.role = .kCandidate → config base l = config base (s.whole v)) :
    Tracks base Q a' (s.setNode v n l) := by
  obtain ⟨-, hcases⟩ := hquiet
  refine h.setNode hw hd hinv (fun hcompetes hterm => ?_) fun hcandidate c hc hcaller hterm => ?_
  · rcases hcases with ⟨-, hfollower | ⟨hsame, -⟩⟩ | ⟨hlt, -⟩
    · exact absurd hfollower hcompetes
    · exact hsame ▸ hcompetes
    · omega
  · rcases hcases with ⟨hstate, hfollower | ⟨hsame, -⟩⟩ | ⟨-, -, hfollower⟩
    · rw [hfollower] at hcandidate
      cases hcandidate
    · have hcompetes : n.role ≠ .kFollower := by rw [hcandidate]; decide
      have hold := (h.server v).agrees.knows (hsame ▸ hcompetes)
      have hnew := hd.server.agrees.knows hcompetes
      rw [hnew.peers, hconfig hcandidate, ← hold.peers]
      subst hcaller
      exact h.asked hc (hsame ▸ hcandidate) (by rw [hterm, hstate])
    · rw [hfollower] at hcandidate
      cases hcandidate

/-! ### Messages -/

lemma addCall (h : Tracks base Q a s) {c : Call} (hc : Sent base a c) :
    Tracks base Q a { s with calls := s.calls ++ [c] } :=
  { h with
    call := fun hmem => by
      rcases List.mem_append.mp hmem with hmem | hmem
      · exact h.call hmem
      · rw [List.mem_singleton.mp hmem]
        exact hc
    answer := fun hans => by
      obtain ⟨c', hc', hanswered⟩ := h.answer hans
      refine ⟨c', ?_, hanswered⟩
      rw [List.getElem?_append_left (List.getElem?_eq_some_iff.mp hc').1]
      exact hc'
    install := fun hi => by
      obtain ⟨⟨c', hc', hrest⟩, hterm⟩ := h.install hi
      refine ⟨⟨c', ?_, hrest⟩, hterm⟩
      rw [List.getElem?_append_left (List.getElem?_eq_some_iff.mp hc').1]
      exact hc' }

lemma addAnswer (h : Tracks base Q a s) {k : ℕ} {c : Call} {ans : Option Answer}
    (hc : s.calls[k]? = some c) (hanswered : ∀ x, ans = some x → Answered a c x) :
    Tracks base Q a (s.addAnswer k ans) :=
  { h with
    answer := fun {k' ans'} hmem => by
      rcases List.mem_append.mp hmem with hmem | hmem
      · exact h.answer hmem
      · obtain ⟨x, hx, heq⟩ := List.mem_map.mp hmem
        cases heq
        exact ⟨c, hc, hanswered _ (Option.mem_toList.mp hx)⟩ }

lemma endCalls (h : Tracks base Q a s) {calls : List Call}
    (hcalls : calls.map Call.stop = s.calls.map Call.stop) :
    Tracks base Q a { s with calls := calls } := by
  have hget : ∀ {k : ℕ} {c : Call}, s.calls[k]? = some c →
      ∃ c' : Call, calls[k]? = some c' ∧ c'.caller = c.caller ∧ c'.target = c.target ∧
        c'.rpc = c.rpc := by
    intro k c hc
    have hk := congrArg (·[k]?) hcalls
    simp only [List.getElem?_map, hc, Option.map_some, Option.map_eq_some_iff] at hk
    obtain ⟨c', hc', heq⟩ := hk
    simp only [Call.stop, Call.mk.injEq, and_true] at heq
    exact ⟨c', hc', heq⟩
  exact {
    h with
    call := fun {c} hc => by
      obtain ⟨c', hc', heq⟩ := List.mem_map.mp (hcalls ▸ List.mem_map_of_mem hc)
      simp only [Call.stop, Call.mk.injEq, and_true] at heq
      obtain ⟨hcaller, htarget, hrpc⟩ := heq
      obtain ⟨hother, hwon, hentries, hcovers⟩ := h.call hc'
      rw [hcaller, htarget] at hother
      rw [hcaller, hrpc] at hwon
      rw [hrpc] at hentries hcovers
      exact ⟨hother, hwon, hentries, hcovers⟩
    answer := fun hans => by
      obtain ⟨c, hc, happend, hsnapshot⟩ := h.answer hans
      obtain ⟨c', hc', -, htarget, hrpc⟩ := hget hc
      refine ⟨c', hc', ?_, ?_⟩ <;> rw [htarget, hrpc]
      · exact happend
      · exact hsnapshot
    install := fun hi => by
      obtain ⟨⟨c, hc, htarget, hrpc⟩, hterm⟩ := h.install hi
      obtain ⟨c', hc', -, htarget', hrpc'⟩ := hget hc
      exact ⟨⟨c', hc', htarget'.trans htarget, hrpc'.trans hrpc⟩, hterm⟩ }

lemma stopCall (h : Tracks base Q a s) (call : ℕ) : Tracks base Q a (s.stopCall call) := by
  refine h.endCalls (List.ext_getElem? fun k => ?_)
  simp only [List.getElem?_map, List.getElem?_modify]
  split <;> cases s.calls[k]? <;> rfl

lemma drop (h : Tracks base Q a s) {rounds : List (NodeId × NodeId)}
    {sending : List (NodeId × NodeId × ℕ)} {installs : NodeId → Option Install}
    (hrounds : ∀ r ∈ rounds, r ∈ s.rounds) (hsending : ∀ r ∈ sending, r ∈ s.sending)
    (hinstalls : ∀ w i, installs w = some i → s.installs w = some i) :
    Tracks base Q a { s with rounds := rounds, sending := sending, installs := installs } :=
  { h with
    round := fun hr => h.round (hrounds _ hr)
    send := fun hr => h.send (hsending _ hr)
    install := fun hi => h.install (hinstalls _ _ hi) }

lemma setProposals (h : Tracks base Q a s) {proposals : List Proposal}
    (hproposals : ∀ p ∈ proposals, ∃ p₀ ∈ s.proposals,
      p.term = p₀.term ∧ p.index = p₀.index ∧ p.command = p₀.command) :
    Tracks base Q a { s with proposals := proposals } :=
  { h with
    proposal := fun {p} hp => by
      obtain ⟨p₀, hp₀, hterm, hindex, hcommand⟩ := hproposals p hp
      unfold Proposed
      rw [hterm, hindex, hcommand]
      exact h.proposal hp₀ }

lemma setVotes (h : Tracks base Q a s) {campaigns : NodeId → Option Campaign}
    {calls : List VoteCall} {answers : List (ℕ × RequestVoteResponse)}
    (hcampaigns : ∀ v k, campaigns v = some k → Stood a v k.request)
    (hcalls : ∀ c ∈ calls, Stood a c.caller c.request ∧
      ((s.node c.caller).role = .kCandidate →
      c.request.term = (s.node c.caller).state.currentTerm →
      c.target ∈ (s.node c.caller).peers.keys)) :
    Tracks base Q a { s with group := { s.group with
      campaigns := campaigns
      voteCalls := calls
      voteAnswers := answers } } :=
  { h with
    campaign := fun hk => hcampaigns _ _ hk
    voteCall := fun hc => (hcalls _ hc).1
    asked := fun hc => (hcalls _ hc).2 }

end Tracks

end DistDB.ClusterModel
