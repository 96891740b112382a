import DistDB.Agreement

/-!
What a node does, as steps of the agreement (`Does`): it enters terms, stands, votes, wins,
takes entries or a snapshot, proposes and commits.
-/

namespace DistDB.Agreement

open NodeModel NodeModel.Node Consensus Config FullLog TermLog Checks

variable {σ : Type}

/-- The log of a leader is a log, and its commands can be decoded. -/
structure Proper (l : List LogEntry) : Prop where
  indexed : Indexed l
  decodable : ∀ e ∈ l, Succeeds (tryDecodeConfChange e.command)

/-- The node agrees, in its own term and with its own log. -/
structure Server (base : Finset NodeId) (Q : History → σ → Prop) (a : History) (v : NodeId)
    (l : List LogEntry) (n : Node σ) : Prop where
  agrees : Agrees base Q a v l n
  term : a.term v = n.state.currentTerm
  log : a.log v = l
  kept : ∀ c, n.state.votedFor = some c → ∃ m, a.vote v n.state.currentTerm c m
  proper : ∀ t, Proper (a.lead t)

/-- The server has gone on to this node, with the agreement. -/
structure Does (base : Finset NodeId) (Q : History → σ → Prop) (a a' : History) (v : NodeId)
    (l : List LogEntry) (n : Node σ) : Prop where
  goes : Goes base v a a'
  server : Server base Q a' v l n
  voted : ∀ {t c m}, a'.vote v t c m → a.vote v t c m ∨ n.state = ⟨t, some c⟩

variable {base : Finset NodeId} {cb : Callbacks σ} {Q : History → σ → Prop} {a a' : History}
  {v : NodeId} {l : List LogEntry} {n n' : Node σ}

lemma Server.refl (h : Server base Q a v l n) : Does base Q a a v l n := ⟨.refl a, h, .inl⟩

lemma Does.trans {a'' : History} {l' : List LogEntry} (h : Does base Q a a' v l n)
    (h' : Does base Q a' a'' v l' n')
    (hvote : ∀ t c, n.state = ⟨t, some c⟩ → n'.state = ⟨t, some c⟩) :
    Does base Q a a'' v l' n' where
  goes := h.goes.trans h'.goes
  server := h'.server
  voted := fun hv => (h'.voted hv).elim (fun hv => (h.voted hv).imp_right (hvote _ _)) .inr

lemma Does.of_agrees (h : Does base Q a a' v l n) (hn : Agrees base Q a' v l n')
    (hstate : n'.state = n.state) : Does base Q a a' v l n' where
  goes := h.goes
  server := ⟨hn, hstate ▸ h.server.term, h.server.log, hstate ▸ h.server.kept,
    h.server.proper⟩
  voted := fun hv => hstate ▸ h.voted hv

lemma Does.settles (h : Does base Q a a' v l n) (hcb : cb.Total) (hw : Watches base cb Q)
    (hinv : Inv base a') {commits : ℕ → ℕ → Prop} (hs : Settles cb commits n n')
    (hcommits : ∀ old i, commits old i → old < i ∧ Committed a' n.state.currentTerm l i) :
    Does base Q a a' v l n' :=
  let ⟨hn, hstate, _⟩ := h.server.agrees.settles hcb hw hinv hs hcommits
  h.of_agrees hn hstate

namespace Server

lemma leading (h : Server base Q a v l n) (hinv : Inv base a) (hrole : n.role = .kLeader) :
    ∃ E, a.election n.state.currentTerm = some E ∧ E.winner = v ∧
      l = a.lead n.state.currentTerm := by
  obtain ⟨⟨E, hE, hwinner⟩, -⟩ := h.agrees.leads hrole
  have hlog := hinv.leader_log hE (by rw [hwinner, h.term])
  exact ⟨E, hE, hwinner, by rw [← hlog, hwinner, h.log]⟩

lemma follow (h : Server base Q a v l n) (hw : Watches base cb Q) (hinv : Inv base a)
    {p : PersistentState} (leaderHint : NodeId) (contact : Option ℕ)
    (hstate : p = n.state ∨ (n.state.currentTerm < p.currentTerm ∧ p.votedFor = none)) :
    Does base Q a (a.bump v p.currentTerm) v l { n with
      state := p
      role := .kFollower
      lastLeaderContact := contact
      leaderHint := leaderHint } := by
  have hle : n.state.currentTerm ≤ p.currentTerm := by
    rcases hstate with rfl | ⟨hlt, -⟩
    · exact le_rfl
    · exact hlt.le
  have hgoes : Goes base v a (a.bump v p.currentTerm) := .bump (h.term ▸ hle)
  refine ⟨hgoes, ⟨?_, Function.update_self .., h.log, fun c hc => ?_, h.proper⟩, .inl⟩
  · exact (h.agrees.goes hw hinv hgoes fun _ _ => rfl).follow leaderHint contact hle
  · rcases hstate with rfl | ⟨-, hnone⟩
    · exact h.kept c hc
    · rw [hnone] at hc
      cases hc

lemma becomeFollower (h : Server base Q a v l n) (hw : Watches base cb Q) (hinv : Inv base a)
    (t : ℕ) : ∃ a', Does base Q a a' v l (n.becomeFollower t) := by
  refine ⟨_, h.follow hw hinv n.leaderHint n.lastLeaderContact ?_⟩
  split
  · rename_i hlt
    exact .inr ⟨hlt, rfl⟩
  · exact .inl rfl

lemma heardFrom (h : Server base Q a v l n) (hw : Watches base cb Q) (hinv : Inv base a)
    (now t : ℕ) (leaderId : NodeId) :
    ∃ a', Does base Q a a' v l (n.heardFrom now t leaderId) ∧
      a'.election = a.election ∧ a'.lead = a.lead := by
  unfold Node.heardFrom
  dsimp only
  split
  · refine ⟨_, h.follow hw hinv leaderId (some now) ?_, rfl, rfl⟩
    unfold Node.becomeFollower
    dsimp only
    split
    · rename_i hlt
      exact .inr ⟨hlt, rfl⟩
    · exact .inl rfl
  · rename_i hcheck
    have hrole : n.role = .kFollower := by
      by_contra hne
      exact hcheck (.inr hne)
    have hfollow := h.follow (p := n.state) hw hinv leaderId (some now) (.inl rfl)
    rw [← hrole] at hfollow
    exact ⟨_, hfollow, rfl, rfl⟩

lemma atTerm (h : Server base Q a v l n) (hw : Watches base cb Q) (hinv : Inv base a) (t : ℕ) :
    ∃ a', Does base Q a a' v l (n.atTerm t) := by
  unfold Node.atTerm
  split
  · exact h.becomeFollower hw hinv t
  · exact ⟨a, h.refl⟩

lemma votingFor (h : Server base Q a v l n) (hw : Watches base cb Q) (hinv : Inv base a)
    {c : NodeId} {b : List LogEntry} (hballot : a.ballot c n.state.currentTerm b)
    (hlog : UpToDate b l) (honce : ∀ d m, a.vote v n.state.currentTerm d m → d = c) :
    Does base Q a (a.grant v c) v l (n.votingFor c) := by
  have hgoes : Goes base v a (a.grant v c) :=
    .grant (h.term ▸ hballot) (h.log ▸ hlog) (h.term ▸ honce)
  refine ⟨hgoes, ⟨?_, h.term, h.log, fun d hd => ?_, h.proper⟩, fun {t d m} hvote => ?_⟩
  · exact (h.agrees.goes hw hinv hgoes fun _ _ => rfl).revote (some c) n.votesReceived
  · obtain rfl := Option.some.inj hd
    exact ⟨_, .inr ⟨rfl, h.term.symm, rfl, rfl⟩⟩
  · rcases hvote with hold | ⟨-, rfl, rfl, -⟩
    · exact .inl hold
    · refine .inr ?_
      rw [h.term]
      rfl

/-! ### Elections -/

lemma standing (h : Server base Q a v l n) (hw : Watches base cb Q) (hinv : Inv base a)
    (hsound : Sound base v l n) (hknows : Knows v n (config base l))
    (hmember : v ∈ config base l) :
    ∃ a', Does base Q a a' v l n.standing ∧ a'.ballot v (n.state.currentTerm + 1) l ∧
      a'.vote v (n.state.currentTerm + 1) v l := by
  obtain ⟨t, ht⟩ : ∃ t, n.state.currentTerm = t := ⟨_, rfl⟩
  have hold : a.term v = t := h.term.trans ht
  have hterm : (a.bump v (t + 1)).term v = t + 1 := Function.update_self ..
  -- the candidate moves to the next term, stands in it, and votes for itself
  have hbump : Goes base v a (a.bump v (t + 1)) := .bump (by omega)
  have hinv₁ := hinv.steps hbump.steps
  have hnominate : Goes base v (a.bump v (t + 1)) ((a.bump v (t + 1)).nominate v) := by
    refine .nominate (by omega) (fun i => ?_) fun m hm => ?_
    · have := hinv.log_term v i
      rw [hterm]
      exact Nat.lt_succ_of_le (this.trans hold.le)
    · have := (hinv.ballot_term hm).2.1
      omega
  have hinv₂ := hinv₁.steps hnominate.steps
  have hballot : ((a.bump v (t + 1)).nominate v).ballot v (t + 1) l :=
    .inr ⟨rfl, hterm.symm, h.log.symm⟩
  have hgrant : Goes base v ((a.bump v (t + 1)).nominate v)
      (((a.bump v (t + 1)).nominate v).grant v v) := by
    have hterm' : ((a.bump v (t + 1)).nominate v).term v = t + 1 := hterm
    have hlog' : ((a.bump v (t + 1)).nominate v).log v = l := h.log
    refine .grant (by rw [hterm']; exact hballot) (by rw [hlog']; exact .inr ⟨rfl, le_rfl⟩)
      fun d m hm => ?_
    · have hlate : (a.bump v (t + 1)).term v ≤ a.term v := hinv.vote_term hm
      omega
  have hvote : (((a.bump v (t + 1)).nominate v).grant v v).vote v (t + 1) v l :=
    .inr ⟨rfl, hterm.symm, rfl, h.log.symm⟩
  have hgoes := (hbump.trans hnominate).trans hgrant
  have hstate : n.standing.state = ⟨t + 1, some v⟩ := by
    show (⟨n.state.currentTerm + 1, some n.id⟩ : PersistentState) = _
    rw [ht, h.agrees.id]
  refine ⟨_, ⟨hgoes, ⟨?_, ?_, h.log, fun c hc => ?_, h.proper⟩, fun {u c m} hu => ?_⟩,
    ht ▸ hballot, ht ▸ hvote⟩
  · exact {
      sound := ⟨base, .inl rfl, hsound.congr rfl rfl rfl rfl rfl⟩
      committed := by
        rw [hstate]
        exact h.agrees.committed.mono hinv hgoes (ht ▸ Nat.le_succ _)
      noted := ⟨h.agrees.noted.next, h.agrees.noted.matched, fun hrole => by cases hrole⟩
      knows := fun _ => ⟨hknows.peers, hknows.self⟩
      stands := fun _ => by
        refine ⟨hmember, ⟨l, ?_, rfl, .inl rfl⟩, fun E hE hwinner => ?_⟩ <;>
          rw [hstate] at *
        · exact hballot
        · have := (hinv.ballot_term (hinv.elected_ballot hE)).2.1
          rw [hwinner] at this
          dsimp only at this
          omega
      leads := fun hrole => by cases hrole
      machine := hw.goes hinv hgoes h.agrees.machine }
  · rw [hstate]
    exact hterm
  · rw [hstate] at hc ⊢
    obtain rfl := Option.some.inj hc
    exact ⟨l, hvote⟩
  · rcases hu with hu | ⟨-, hu, hc, -⟩
    · exact .inl hu
    · refine .inr (hstate.trans ?_)
      rw [hu, hc, show ((a.bump v (t + 1)).nominate v).term v = t + 1 from hterm]

lemma becomeLeader (h : Server base Q a v l n) (hw : Watches base cb Q) (hinv : Inv base a)
    (hrole : n.role = .kCandidate) {q : Finset NodeId} (hq : Majority q (config base l))
    (hvotes : ∀ x ∈ q, ∃ m, a.vote x n.state.currentTerm v m) :
    ∃ a', Does base Q a a' v l n.becomeLeader.1 := by
  have hrefreshed := h.agrees.refreshMembership
  rcases n.becomeLeader_cases with heq | ⟨-, heq⟩ <;> rw [heq]
  · exact ⟨a, h.refl.of_agrees hrefreshed n.refreshMembership_state⟩
  obtain ⟨hmember, ⟨b, hballot, hconfig, hb⟩, hfresh⟩ := h.agrees.stands hrole
  -- its log has changed since only if it stood without something committed; then it does not win
  obtain rfl : b = l := by
    refine hb.resolve_right fun ⟨t, k, m, hcommit, ht, hnot⟩ => hnot ?_
    exact hinv.complete_of_votes hballot (hconfig ▸ hq) hvotes hcommit ht
  have hterm := h.term
  have hlog := h.log
  have hgoes : Goes base v a (a.win v (a.log v) q) :=
    .win hinv (by rwa [hterm, hlog]) (by rwa [hlog]) (by rwa [hterm]) (by rwa [hterm])
  have hrole' : n.refreshMembership.1.role ≠ .kFollower := by
    rw [refreshMembership_role, hrole]
    decide
  have hsound := hrefreshed.sound_base hrole'
  have hknows := hrefreshed.knows hrole'
  have hstate : n.refreshMembership.1.leading.state = n.state := n.refreshMembership_state
  have helection : (a.win v (a.log v) q).election n.state.currentTerm = some ⟨v, b, q⟩ := by
    rw [← hterm, ← hlog]
    exact Function.update_self ..
  refine ⟨_, hgoes, ⟨?_, hterm.trans (by rw [hstate]), hlog, ?_, fun t => ?_⟩, .inl⟩
  · exact {
      sound := ⟨base, .inl rfl, hsound.congr rfl rfl rfl rfl rfl⟩
      committed := hrefreshed.committed.mono hinv hgoes le_rfl
      noted := {
        next := fun p i hp hpos => by
          rw [leading_nextIndex, find_foldl_insert] at hp
          split_ifs at hp with hpeer
          · rw [leading_peers, OrdMap.keys, List.mem_toFinset]
            exact hpeer
          · exact hrefreshed.noted.next p i hp hpos
        matched := fun p hp => by
          rw [OrdMap.mem_keys, leading_matchIndex, find_foldl_insert] at hp
          split_ifs at hp with hpeer
          · rw [leading_peers, OrdMap.keys, List.mem_toFinset]
            exact hpeer
          · exact hrefreshed.noted.matched ((OrdMap.mem_keys _).mpr hp)
        all := fun _ => by
          ext p
          rw [OrdMap.mem_keys, leading_matchIndex, find_foldl_insert, leading_peers, OrdMap.keys,
            List.mem_toFinset]
          split_ifs with hpeer
          · exact iff_of_true rfl hpeer
          · refine iff_of_false (fun hp => hpeer ?_) hpeer
            have := hrefreshed.noted.matched ((OrdMap.mem_keys _).mpr hp)
            rwa [OrdMap.keys, List.mem_toFinset] at this }
      knows := fun _ => ⟨hknows.peers, hknows.self⟩
      stands := fun hrole => by cases hrole
      leads := fun _ => {
        won := ⟨_, by rw [hstate]; exact helection, rfl⟩
        counted := .inl hmember
        acked := fun p i hp j hj hji => by
          rw [leading_matchIndex, find_foldl_insert] at hp
          split_ifs at hp with hpeer
          · have := Option.some.inj hp
            omega
          · have := hrefreshed.noted.matched
              ((OrdMap.mem_keys _).mpr (Option.isSome_of_eq_some hp))
            rw [OrdMap.keys, List.mem_toFinset] at this
            exact absurd this hpeer
        next := fun p i hp => by
          rw [leading_nextIndex, find_foldl_insert] at hp
          split_ifs at hp with hpeer
          · rw [← Option.some.inj hp, hrefreshed.holds.lastIndex]
          · by_contra hlt
            have := hrefreshed.noted.next p i hp (by omega)
            rw [OrdMap.keys, List.mem_toFinset] at this
            exact hpeer this }
      machine := hw.goes hinv hgoes hrefreshed.machine }
  · rw [hstate]
    exact h.kept
  · by_cases ht : t = n.state.currentTerm
    · subst ht
      show Proper (Function.update a.lead (a.term v) (a.log v) n.state.currentTerm)
      rw [hterm, Function.update_self, hlog]
      exact ⟨hsound.holds.indexed, hsound.decodable⟩
    · show Proper (Function.update a.lead (a.term v) (a.log v) t)
      rw [hterm, Function.update_of_ne ht]
      exact h.proper t

lemma holdCompacted (h : Server base Q a v l n) (hw : Watches base cb Q) (hinv : Inv base a)
    {E : Election NodeId LogEntry} (hE : a.election n.state.currentTerm = some E) :
    ∃ a', Does base Q a a' v l n ∧ ∀ j ≤ n.log.snapshotIndex,
      a'.ack v n.state.currentTerm j := by
  have hcovered := (h.agrees.committed.le h.agrees.compacted).lead hinv hE
  have hlen : (l.take n.log.snapshotIndex).length = n.log.snapshotIndex := by
    simpa using h.agrees.holds.snapshot_le
  have htake : (a.lead n.state.currentTerm).take n.log.snapshotIndex =
      l.take n.log.snapshotIndex := by
    rw [take_eq_of_isPrefix hcovered hlen.ge, List.take_take, Nat.min_self]
  have hgoes : Goes base v a (a.hold v n.log.snapshotIndex) := by
    refine .hold ?_ ?_ ?_ <;> rw [h.term]
    · rw [hE]
      rfl
    · exact hlen.ge.trans hcovered.length_le
    · rw [htake, h.log]
      exact List.take_prefix _ _
  exact ⟨_, ⟨hgoes,
    ⟨h.agrees.goes hw hinv hgoes fun _ _ => rfl, h.term, h.log, h.kept, h.proper⟩, .inl⟩,
    fun j hj => .inr ⟨rfl, h.term.symm, hj⟩⟩

lemma advance (h : Server base Q a v l n) (hw : Watches base cb Q) (hinv : Inv base a)
    (hrole : n.role = .kLeader) (hv : v ∉ n.peers.keys) :
    ∃ a', Does base Q a a' v l n ∧
      ∀ old i, n.Advances old i → old < i ∧ Committed a' n.state.currentTerm l i := by
  by_cases hown : n.log.termAt n.majorityIndex = n.state.currentTerm
  case neg =>
    refine ⟨a, h.refl, fun old i ⟨_, hi, hterm⟩ => ?_⟩
    rw [hi] at hterm
    exact absurd hterm hown
  obtain ⟨t, ht⟩ : ∃ t, n.state.currentTerm = t := ⟨_, rfl⟩
  obtain ⟨k, hk⟩ : ∃ k, n.majorityIndex = k := ⟨_, rfl⟩
  obtain ⟨E, hE, hwinner, hlead⟩ := h.leading hinv hrole
  obtain ⟨-, hcounted, hacked, -⟩ := h.agrees.leads hrole
  have hholds := h.agrees.holds
  have hknows := h.agrees.knows (by rw [hrole]; decide)
  have hmajority := majority_acked h.agrees.noted hrole hv
  have hmem := n.majorityIndex_mem
  have hterm := h.term
  rw [ht] at hE hcounted hacked hown hterm hlead
  rw [hk] at hown hmajority hmem
  have hpos := hinv.election_pos hE
  have hsnap : n.log.snapshotIndex ≤ k := by
    by_contra hlt
    rw [Holds.termAt_of_lt (by omega)] at hown
    omega
  rw [hholds.termAt hsnap] at hown
  have hkl := exists_of_termOf_ne_zero (l := l) (i := k) (by omega)
  -- the leader counts itself: it holds its whole log
  have hhold : Goes base v a (a.hold v l.length) := by
    refine .hold ?_ ?_ ?_ <;> rw [hterm]
    · rw [hE]; rfl
    · rw [← hlead]
    · rw [h.log, ← hlead]
      exact List.take_prefix _ _
  have hinv' := hinv.steps hhold.steps
  -- and the index that a majority holds, an entry of this term, is committed
  have hdecide : Goes base v (a.hold v l.length) ((a.hold v l.length).decide t k) := by
    refine .decide (E := E) (c := insert v n.peers.keys) hE ?_ ?_ (fun x hx => ?_) hmajority ?_
    · show k ≤ (a.lead t).length
      rw [← hlead]
      exact hkl.2
    · show termOf (a.lead t) k = t
      rwa [← hlead]
    · rcases Finset.mem_insert.mp hx with rfl | hx
      · exact .inr ⟨rfl, hterm.symm, hkl.2⟩
      · obtain ⟨hkey, hle⟩ := Finset.mem_filter.mp hx
        obtain ⟨i, hi⟩ := Option.isSome_iff_exists.mp ((OrdMap.mem_keys _).mp hkey)
        rw [hi] at hle
        exact .inl (hacked x i hi k hkl.1 hle)
    · show Consensus.Counted base E.winner t (a.lead t) _
      rw [← hlead, hwinner]
      rcases hcounted with hmember | hremoved
      · exact .inl (hknows.ids hmember)
      · refine .inr ⟨?_, hremoved⟩
        rw [hknows.peers]
        ext y
        by_cases hy : y = v <;> simp [hy]
  have hagrees := (h.agrees.goes hw hinv hhold fun _ _ => rfl).goes hw hinv' hdecide fun _ _ => rfl
  refine ⟨_, ⟨hhold.trans hdecide, ⟨hagrees, h.term, h.log, h.kept, h.proper⟩, .inl⟩,
    ?_⟩
  rintro old i ⟨hlt, rfl, -⟩
  refine ⟨hlt, ?_⟩
  rw [hk, ht]
  refine ⟨hkl.2, .inr ⟨t, k, _, .inr ⟨rfl, rfl, rfl⟩, le_rfl, ?_⟩⟩
  show l.take k <+: (a.lead t).take k
  rw [← hlead]

end Server

end DistDB.Agreement
