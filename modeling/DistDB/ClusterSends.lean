import DistDB.ClusterSteps

/-!
The leader's side of a cluster, as steps of the agreement: it sends entries and snapshots, takes
the answers, and proposes.
-/

namespace DistDB.ClusterModel

open NodeModel NodeModel.Node Elections Agreement Config FullLog TermLog
open Consensus (Goes Committed)

variable {σ : Type} {base : Finset NodeId} {Q : History → σ → Prop} {cb : Callbacks σ}
  {a a' : History} {s s' : Cluster σ} {v peer : NodeId} {n : Node σ} {l : List LogEntry}

namespace Tracks

lemma setNode_settles (h : Tracks base Q a s) (hcb : cb.Total) (hw : Watches base cb Q)
    (hs : Settles cb (fun _ _ => False) (s.node v) n) :
    Tracks base Q a (s.setNode v n (s.whole v)) :=
  h.setNode_quiet hw ((h.server v).refl.settles hcb hw h.inv hs fun _ _ hfalse => hfalse.elim)
    h.inv (Quiet.settles hs) fun _ => rfl

lemma replicateToAll (h : Tracks base Q a s) (hvotes : Elections.Inv s.group)
    (hs : s.step? cb (.replicateToAll v) = some s') : Tracks base Q a s' := by
  simp only [Cluster.step?] at hs
  split_ifs at hs
  cases hs
  exact {
    h with
    round := fun {w p} hmem => by
      rcases List.mem_append.mp hmem with hold | hnew
      · exact h.round hold
      · obtain ⟨q, hq, heq⟩ := List.mem_map.mp hnew
        cases heq
        rintro rfl
        refine (hvotes.apart q.1).peers ?_
        rw [OrdMap.keys, List.mem_toFinset]
        exact List.mem_map_of_mem hq }

lemma sent_append (h : Tracks base Q a s) (hrole : (s.node v).role = .kLeader) {next : ℕ}
    (hpeer : peer ≠ v) (hfind : (s.node v).nextIndex.find peer = some next)
    (hlt : (s.node v).log.snapshotIndex < next) :
    Sent base a ⟨v, peer, .append ⟨(s.node v).state.currentTerm, (s.node v).id, next - 1,
      (s.node v).log.termAt (next - 1),
      (List.range' next ((s.node v).log.lastIndex + 1 - next)).filterMap (s.node v).log.get,
      (s.node v).commitIndex⟩, true⟩ := by
  have hserver := h.server v
  obtain ⟨E, hE, hwinner, hlead⟩ := hserver.leading h.inv hrole
  have hnext := (hserver.agrees.leads hrole).next peer next hfind
  have hholds := hserver.agrees.holds
  refine ⟨hpeer, ⟨E, hE, hwinner⟩, fun req hreq => ?_,
    fun req covered hreq => by cases hreq⟩
  cases hreq
  refine ⟨s.whole v, hlead ▸ List.prefix_refl _, by dsimp only; omega, ?_, ?_,
    hserver.agrees.committed⟩
  · exact hholds.termAt (by omega)
  · have hentries := hholds.filterMap_get (k := next - 1) (by omega)
    rw [show next - 1 + 1 = next by omega,
      show (s.node v).log.lastIndex - (next - 1) = (s.node v).log.lastIndex + 1 - next by omega]
      at hentries
    exact hentries

lemma replicateTo (h : Tracks base Q a s) (hcb : cb.Total) (hw : Watches base cb Q)
    (hs : s.step? cb (.replicateTo v peer) = some s') : Tracks base Q a s' := by
  simp only [Cluster.step?] at hs
  split_ifs at hs with hround
  cases hs
  have hnext : Tracks base Q a { s.setNode v ((s.node v).replicateTo peer).1 (s.whole v) with
      rounds := s.rounds.erase (v, peer) } :=
    (h.setNode_settles hcb hw (replicateTo_settles (s.node v) peer)).drop
      (fun r hr => List.mem_of_mem_erase hr) (fun r hr => hr) fun w i hi => hi
  rcases (s.node v).replicateTo_cases peer with
    hnone | ⟨hrole, hsend⟩ | ⟨hrole, next, hfind, hlt, hsend⟩
  · rw [hnone]
    exact hnext
  · rw [hsend]
    exact {
      hnext with
      send := fun hmem => by
        rcases List.mem_append.mp hmem with hold | hnew
        · exact h.send hold
        · cases List.mem_singleton.mp hnew
          exact h.round hround }
  · rw [hsend]
    exact hnext.addCall (h.sent_append hrole (h.round hround) hfind hlt)

/-- The members that a leader sends with a snapshot, if it is one, and no change lies behind
what it has applied. -/
lemma covers_snapshot (h : Tracks base Q a s) (hrole : (s.node v).role = .kLeader)
    (hnone : confChanges (s.node v).log (s.node v).lastApplied (s.node v).log.lastIndex = .ok [])
    (hstays : Stays (s.node v)) (cb : Callbacks σ) :
    Covers base a ⟨(s.node v).state.currentTerm, (s.node v).id, (s.node v).lastApplied,
      (s.node v).log.termAt (s.node v).lastApplied, cb.snapshot (s.node v).machine,
      (s.node v).peers.insert (s.node v).id (s.node v).ownAddress⟩
      ((s.whole v).take (s.node v).lastApplied) := by
  have hserver := h.server v
  have hcompetes : (s.node v).role ≠ .kFollower := by rw [hrole]; decide
  have hsound := hserver.agrees.sound_base hcompetes
  have hknows := hserver.agrees.knows hcompetes
  have hlen : ((s.whole v).take (s.node v).lastApplied).length = (s.node v).lastApplied := by
    simpa using hsound.applied.le.trans hsound.committed
  refine ⟨hlen, ?_, ?_, ?_⟩
  · rw [hlen, termOf_take le_rfl]
    exact (hsound.holds.termAt hsound.compacted).symm
  · rw [hlen, hsound.applied]
    refine hserver.agrees.committed.congr ?_
    exact List.prefix_refl _
  · rw [confChanges_eq hsound.holds hsound.decodable_log hsound.compacted, hsound.holds.lastIndex,
      List.take_of_length_le (by simp)] at hnone
    have hplain := changesOf_eq_nil.mp (Except.ok.inj hnone)
    have hsame : config base ((s.whole v).take (s.node v).lastApplied ++
        (s.whole v).drop (s.node v).lastApplied) =
        config base ((s.whole v).take (s.node v).lastApplied) := config_append_plain hplain
    rw [List.take_append_drop] at hsame
    rw [← hsame, OrdMap.keys_insert, hsound.id]
    exact hknows.ids (hknows.self.mp hstays)

lemma sendInstallSnapshot (h : Tracks base Q a s) (hcb : cb.Total) (hw : Watches base cb Q)
    {term : ℕ} (hok : Careful s (.sendInstallSnapshot v peer term))
    (hs : s.step? cb (.sendInstallSnapshot v peer term) = some s') : Tracks base Q a s' := by
  simp only [Cluster.step?] at hs
  split_ifs at hs with hsending
  cases hs
  have hnext : Tracks base Q a
      { s.setNode v ((s.node v).sendInstallSnapshot cb peer term).1 (s.whole v) with
        sending := s.sending.erase (v, peer, term) } :=
    (h.setNode_settles hcb hw (sendInstallSnapshot_settles (s.node v) peer term)).drop
      (fun r hr => hr) (fun r hr => List.mem_of_mem_erase hr) fun w i hi => hi
  rcases @sendInstallSnapshot_cases σ cb (s.node v) peer term with hnone | ⟨hrole, rfl, hsend⟩
  · rw [hnone]
    exact hnext
  · rw [hsend]
    obtain ⟨hchanges, hstays⟩ := hok hrole
    obtain ⟨E, hE, hwinner, -⟩ := (h.server v).leading h.inv hrole
    refine hnext.addCall ⟨h.send hsending, ⟨E, hE, hwinner⟩, (fun req hreq => by cases hreq),
      fun req covered hreq => ?_⟩
    cases hreq
    exact h.covers_snapshot hrole hchanges hstays cb

/-! ### The answers -/

lemma server_acknowledged (h : Server base Q a v l n) (hrole : n.role = .kLeader) {i : ℕ}
    (hpeer : (n.peers.find peer).isSome)
    (hacked : ∀ j, 0 < j → j ≤ i → a.ack peer n.state.currentTerm j)
    (hle : i ≤ l.length) :
    Does base Q a a v l ((n.replicationLost peer).acknowledged peer i) := by
  have hlost : Agrees base Q a v l (n.replicationLost peer) :=
    h.agrees.note fun p j hp => by rw [hp]; exact le_rfl
  exact h.refl.of_agrees
    (hlost.acknowledged hrole ((OrdMap.mem_keys _).mpr hpeer) hacked hle) rfl

lemma deposed (h : Tracks base Q a s) (hw : Watches base cb Q) (term : ℕ) :
    ∃ a', Goes base v a a' ∧ Tracks base Q a' (s.setNode v
      (((s.node v).replicationLost peer).becomeFollower term) (s.whole v)) := by
  have hlost : Does base Q a a v (s.whole v) ((s.node v).replicationLost peer) :=
    (h.server v).refl.of_agrees
      ((h.server v).agrees.note fun p j hp => by rw [hp]; exact le_rfl) rfl
  obtain ⟨a', hd⟩ := hlost.server.becomeFollower hw h.inv term
  have hquiet : Quiet (s.node v) (((s.node v).replicationLost peer).becomeFollower term) :=
    (Quiet.of_eq rfl rfl rfl rfl : Quiet (s.node v) ((s.node v).replicationLost peer)).trans
      (.becomeFollower _ _)
  exact ⟨a', hd.goes, h.setNode_quiet hw hd (h.inv.steps hd.goes.steps) hquiet fun _ => rfl⟩

lemma noted_settles (h : Tracks base Q a s) (hvotes : Elections.Inv s.group) (hcb : cb.Total)
    (hw : Watches base cb Q) {m : Node σ} (hm : Does base Q a a v (s.whole v) m)
    (hrole : m.role = .kLeader) (hpeers : m.peers = (s.node v).peers)
    (hs : Settles cb m.Advances m n) (hquiet : Quiet (s.node v) n) :
    ∃ a', Goes base v a a' ∧ Tracks base Q a' (s.setNode v n (s.whole v)) := by
  obtain ⟨a', hd, hcommits⟩ := hm.server.advance hw h.inv hrole
    (by rw [hpeers]; exact (hvotes.apart v).peers)
  have hinv := h.inv.steps hd.goes.steps
  have hd' := hd.settles hcb hw hinv hs hcommits
  exact ⟨a', hd.goes, h.setNode_quiet hw hd' hinv hquiet fun _ => rfl⟩

theorem appendReply (h : Tracks base Q a s) (hvotes : Elections.Inv s.group) (hcb : cb.Total)
    (hw : Watches base cb Q) {call answer : ℕ}
    (hs : s.step? cb (.appendReply call answer) = some s') :
    ∃ v a', Goes base v a a' ∧ Tracks base Q a' s' := by
  simp only [Cluster.step?] at hs
  split at hs
  case h_2 => cases hs
  rename_i v peer req call' resp hc hans
  split_ifs at hs with hcall
  cases hs
  subst hcall
  obtain ⟨c, hc', hanswered⟩ := h.answer (List.mem_of_getElem? hans)
  obtain rfl := Option.some.inj (hc'.symm.trans hc)
  obtain ⟨m, hm, hprev, -, hentries, -⟩ := (h.call (List.mem_of_getElem? hc)).entries req rfl
  have hsent : req.prevLogIndex + req.entries.length = m.length := by
    rw [hentries, List.length_drop]
    omega
  have hquiet := Quiet.run cb (s.node v)
    (.appendReply peer req.term req.prevLogIndex req.entries.length resp)
  suffices hnext : ∃ a', Goes base v a a' ∧ Tracks base Q a' (s.setNode v
      ((s.node v).appendReply cb peer req.term req.prevLogIndex req.entries.length resp).1
      (s.whole v)) by
    obtain ⟨a', hgoes, htracks⟩ := hnext
    exact ⟨v, a', hgoes, htracks.stopCall _⟩
  rcases @appendReply_cases σ cb (s.node v) peer req.term req.prevLogIndex req.entries.length resp
    with hsettles | ⟨-, heq⟩ | ⟨hsuccess, hrole, hterm, hpeer, matched, hmatched, hsettles⟩
  · exact ⟨a, .refl a, h.setNode_settles hcb hw hsettles⟩
  · rw [heq]
    exact h.deposed hw resp.term
  · obtain ⟨E, hE, -, hlead⟩ := (h.server v).leading h.inv hrole
    have hacked : (∀ j, 0 < j → j ≤ matched → a.ack peer (s.node v).state.currentTerm j) ∧
        matched ≤ (s.whole v).length := by
      rcases hmatched with rfl | hfind
      · refine ⟨fun j hpos hj => ?_, ?_⟩
        · rw [← hterm]
          exact hanswered.append req resp rfl rfl hsuccess j hpos hj
        · rw [hsent, hlead, ← hterm]
          exact hm.length_le
      · have hacks := ((h.server v).agrees.leads hrole).acked peer matched hfind
        refine ⟨hacks, ?_⟩
        rcases Nat.eq_zero_or_pos matched with rfl | hpos
        · exact Nat.zero_le _
        · rw [hlead]
          exact (h.inv.ack_term (hacks matched hpos le_rfl)).2.2
    exact h.noted_settles hvotes hcb hw
      (server_acknowledged (h.server v) hrole hpeer hacked.1 hacked.2) hrole rfl hsettles hquiet

theorem snapshotReply (h : Tracks base Q a s) (hcb : cb.Total) (hw : Watches base cb Q)
    {call answer : ℕ} (hs : s.step? cb (.snapshotReply call answer) = some s') :
    ∃ v a', Goes base v a a' ∧ Tracks base Q a' s' := by
  simp only [Cluster.step?] at hs
  split at hs
  case h_2 => cases hs
  rename_i v peer req covered call' resp hc hans
  split_ifs at hs with hcall
  cases hs
  subst hcall
  obtain ⟨c, hc', hanswered⟩ := h.answer (List.mem_of_getElem? hans)
  obtain rfl := Option.some.inj (hc'.symm.trans hc)
  have hcovers := (h.call (List.mem_of_getElem? hc)).covers req covered rfl
  suffices hnext : ∃ a', Goes base v a a' ∧ Tracks base Q a' (s.setNode v
      ((s.node v).snapshotReply peer req.term req.lastIncludedIndex resp) (s.whole v)) by
    obtain ⟨a', hgoes, htracks⟩ := hnext
    exact ⟨v, a', hgoes, htracks.stopCall _⟩
  rcases (s.node v).snapshotReply_cases peer req.term req.lastIncludedIndex resp with
    heq | ⟨-, heq⟩ | ⟨hle, hrole, hterm, hpeer, heq⟩ <;> rw [heq]
  · refine ⟨a, .refl a, h.setNode_settles hcb hw (.single (.note _ _ _ fun p i hi => ?_))⟩
    rw [hi]
    exact le_rfl
  · exact h.deposed hw resp.term
  · obtain ⟨E, hE, -, hlead⟩ := (h.server v).leading h.inv hrole
    have hacked := (hanswered.snapshot req covered resp rfl rfl).resolve_left (by omega)
    rw [hterm] at hacked
    have hlen : req.lastIncludedIndex ≤ (s.whole v).length := by
      have hpre := hcovers.committed.lead h.inv (hterm ▸ hE)
      rw [List.take_length, hterm, ← hlead] at hpre
      exact hcovers.index ▸ hpre.length_le
    have hd := server_acknowledged (h.server v) hrole hpeer hacked hlen
    exact ⟨a, .refl a, h.setNode_quiet hw hd h.inv (.of_eq rfl rfl rfl rfl) fun _ => rfl⟩

lemma lost (h : Tracks base Q a s) (hcb : cb.Total) (hw : Watches base cb Q) {call : ℕ}
    (hs : s.step? cb (.lost call) = some s') : Tracks base Q a s' := by
  simp only [Cluster.step?] at hs
  split at hs
  case h_2 => cases hs
  cases hs
  refine Tracks.stopCall ?_ call
  refine h.setNode_settles hcb hw (.single (.note _ _ _ fun p i hi => ?_))
  rw [hi]
  exact le_rfl

lemma extended_append (h : Tracks base Q a s) (term : ℕ) (command : Bytes) :
    s.extended v ((s.node v).log.append term command).1 =
      s.whole v ++ [⟨(s.whole v).length + 1, term, command⟩] := by
  have hholds := (h.server v).agrees.holds
  have happend := hholds.append term command
  unfold Cluster.extended
  rw [happend.entries]
  show (s.whole v).take (s.node v).log.snapshotIndex ++ List.drop (s.node v).log.snapshotIndex _ = _
  have htake : (s.whole v ++ [(⟨(s.whole v).length + 1, term, command⟩ : LogEntry)]).take
      (s.node v).log.snapshotIndex = (s.whole v).take (s.node v).log.snapshotIndex :=
    List.take_append_of_le_length hholds.snapshot_le
  rw [← htake, List.take_append_drop]

theorem propose (h : Tracks base Q a s) (hcb : cb.Total)
    (hw : Watches base cb Q) {command : Bytes} (hok : Careful s (.propose v command))
    (hs : s.step? cb (.propose v command) = some s') :
    ∃ a', Goes base v a a' ∧ Tracks base Q a' s' := by
  have hquiet := Quiet.run cb (s.node v) (.propose command)
  simp only [Cluster.step?] at hs
  rcases @propose_cases σ cb (s.node v) command with
    ⟨hrefused, heq, -⟩ | ⟨hrole, hrefusal, m, hm, hsettles, -⟩
  · rw [if_neg hrefused, heq] at hs
    cases hs
    exact ⟨a, .refl a, h.setNode_quiet hw (h.server v).refl h.inv (.refl _) fun _ => rfl⟩
  rw [if_pos hrefusal] at hs
  cases hs
  obtain ⟨a₁, hd₁, hlead⟩ :=
    (h.server v).propose hw h.inv hrole hrefusal fun cc hcc => hok cc hcc
  rw [← hm] at hd₁
  have hmrole : m.role = .kLeader := by rw [hm, refreshMembership_role]; exact hrole
  have hmstate : m.state = (s.node v).state := by rw [hm, refreshMembership_state]; rfl
  have hmpeers : v ∉ m.peers.keys := by
    have hknows := hd₁.server.agrees.knows (by rw [hmrole]; decide)
    rw [hknows.peers]
    exact Finset.notMem_erase v _
  obtain ⟨a₂, hd₂, hcommits⟩ := hd₁.server.advance hw
    (h.inv.steps hd₁.goes.steps) hmrole hmpeers
  have hinv := h.inv.steps (hd₁.goes.trans hd₂.goes).steps
  have hd := (hd₁.trans hd₂ fun _ _ => id).settles hcb hw hinv hsettles hcommits
  refine ⟨a₂, hd.goes, ?_⟩
  rw [h.extended_append]
  have hnext := h.setNode_quiet hw hd hinv hquiet fun hcandidate =>
    absurd hcandidate (hquiet.not_candidate (by rw [hrole]; decide))
  exact {
    hnext with
    proposal := fun {p} hp => by
      rcases List.mem_append.mp hp with hold | hnew
      · exact hnext.proposal hold
      · rw [List.mem_singleton.mp hnew]
        refine Proposed.mono ?_ hd₂.goes
        have hindex : ((s.node v).log.append (s.node v).state.currentTerm command).2 =
            (s.whole v).length + 1 := by
          rw [← (h.server v).agrees.holds.lastIndex]
          rfl
        refine ⟨by dsimp only; omega, ?_⟩
        dsimp only
        rw [hindex, hlead]
        simp }

end Tracks

end DistDB.ClusterModel
