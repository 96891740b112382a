import DistDB.ClusterSends

/-!
The follower's side of a cluster, as steps of the agreement: a node takes the entries of a
leader, or adopts a snapshot in the three sections of its handler.
-/

namespace DistDB.ClusterModel

open NodeModel NodeModel.Node Elections Agreement Config FullLog TermLog
open Consensus (Goes Committed)

variable {σ : Type} {base : Finset NodeId} {Q : History → σ → Prop} {cb : Callbacks σ}
  {a a' : History} {s s' : Cluster σ} {v : NodeId} {n : Node σ} {l : List LogEntry}

/-- A node that is or was a member, or knows members, has the members behind its boundary from
the cluster. -/
lemma Joined.sound (h : Joined n) (hagrees : Agrees base Q a v l n) : Sound base v l n := by
  obtain ⟨b, rfl | ⟨rfl, rfl, -⟩, hs⟩ := hagrees.sound
  · exact hs
  · exfalso
    obtain ⟨hpeers, hself⟩ := hs.stored
    rw [List.take_nil, config_nil] at hpeers hself
    rcases h with hmember | hknown
    · have hin := hself.mp hmember
      cases hin
    · refine hknown (List.eq_nil_iff_forall_not_mem.mpr fun p hp => ?_)
      have hin : p.1 ∈ n.membershipState.basePeers.keys := by
        rw [OrdMap.keys, List.mem_toFinset]
        exact List.mem_map_of_mem hp
      dsimp only at hpeers
      rw [hpeers] at hin
      cases Finset.mem_of_mem_erase hin

namespace Tracks

lemma extended_same (h : Tracks base Q a s) (v : NodeId) :
    s.extended v (s.node v).log = s.whole v := by
  unfold Cluster.extended
  rw [(h.server v).agrees.holds.entries, List.take_append_drop]

lemma answer_refused {c : Call} {term index : ℕ} :
    Answered a c (.append ⟨term, false, index⟩) where
  append := fun req resp _ hans hsuccess => by
    cases hans
    cases hsuccess
  snapshot := fun req covered resp _ hans => by cases hans

theorem appendEntries (h : Tracks base Q a s) (hcb : cb.Total) (hw : Watches base cb Q)
    {call now : ℕ} (hok : Careful s (.appendEntries call now))
    (hs : s.step? cb (.appendEntries call now) = some s') :
    ∃ v a', Goes base v a a' ∧ Tracks base Q a' s' := by
  simp only [Cluster.step?] at hs
  split at hs
  case h_2 => cases hs
  rename_i caller v req waiting hc
  cases hs
  have hserver := h.server v
  have hquiet := Quiet.run cb (s.node v) (.appendEntries now req)
  obtain ⟨hother, ⟨E, hE, hwinner⟩, hentries, -⟩ := h.call (List.mem_of_getElem? hc)
  obtain ⟨m, hm, hprev, hprevTerm, hdrop, hleaderCommit⟩ := hentries req rfl
  obtain ⟨a₁, hd₁, helection, hlead⟩ := hserver.heardFrom hw h.inv now req.term req.leaderId
  have hinv₁ := h.inv.steps hd₁.goes.steps
  refine ⟨v, ?_⟩
  rcases @handleAppendEntries_cases σ cb now (s.node v) req with
    ⟨hlt, heq⟩ | ⟨hle, hlog, heq⟩ | ⟨hle, log, hlog, hsettles, hresp⟩
  · -- the leader is behind
    have hsame : logAfter (s.node v) req = (s.node v).log := by
      unfold logAfter
      rw [if_pos hlt]
    rw [heq, hsame, h.extended_same]
    have hnext := h.setNode_quiet hw hserver.refl h.inv (.refl _) fun _ => rfl
    exact ⟨a, .refl a, hnext.addAnswer hc fun x hx => by cases hx; exact answer_refused⟩
  · -- the log does not go on from there
    have hsame : logAfter (s.node v) req = (s.node v).log := by
      unfold logAfter
      rw [if_neg (by omega), hlog]
      rfl
    rw [Handler.run, heq] at hquiet
    rw [heq, hsame, h.extended_same]
    have hnext := h.setNode_quiet hw hd₁ hinv₁ hquiet fun _ => rfl
    exact ⟨a₁, hd₁.goes, hnext.addAnswer hc fun x hx => by cases hx; exact answer_refused⟩
  · have hafter : logAfter (s.node v) req = log := by
      unfold logAfter
      rw [if_neg (by omega), hlog]
      rfl
    have hterm := heardFrom_currentTerm (s.node v) now req.term req.leaderId hle
    have hrole := heardFrom_role (s.node v) now req.term req.leaderId
    have hother' : E.winner ≠ v := fun heq => hother (heq.symm.trans hwinner)
    have hjoin : Sound base v (s.whole v) ((s.node v).heardFrom now req.term req.leaderId) ∨
        m.drop req.prevLogIndex = [] := by
      rcases hok _ req hc rfl with hjoined | hnone
      · exact .inl ((hjoined.sound hserver.agrees).congr (by simp) (by simp) (by simp) (by simp)
          (by simp))
      · exact .inr (hdrop ▸ hnone)
    obtain ⟨a₂, hd₂, -, hacks, hwhole⟩ := hd₁.server.takeEntries hw hinv₁ hrole
      (by rw [hterm, helection]; exact hE) hother' (by rw [hterm, hlead]; exact hm) hprev
      (by rw [heardFrom_log, ← hprevTerm, ← hdrop]; exact hlog) hjoin
    rw [heardFrom_log] at hwhole
    have hinv₂ := hinv₁.steps hd₂.goes.steps
    have hlastIndex : log.lastIndex = (merge (s.whole v) m).length :=
      hd₂.server.agrees.holds.lastIndex
    have hpre := prefix_merge (s.whole v) m
    have hd₃ := (hd₁.trans hd₂ fun _ _ => id).settles hcb hw hinv₂
        hsettles fun old i hi => by
      obtain ⟨hold, rfl⟩ := hi
      have hmin : min req.leaderCommit log.lastIndex = req.leaderCommit :=
        Nat.min_eq_left (hleaderCommit.1.trans (hpre.length_le.trans hlastIndex.ge))
      rw [hmin]
      refine ⟨hold, ?_⟩
      rw [withLog_state, hterm]
      exact (hleaderCommit.mono h.inv (hd₁.goes.trans hd₂.goes) le_rfl).congr
        ((List.take_prefix _ _).trans hpre)
    have hfollower := @Settles.keeps σ cb _ _ _ (fun n => n.role = .kFollower) hsettles hrole
      fun b c hb hmove => ((Quiet.settles (.single hmove)).2.elim
        (fun h => h.2.elim id fun h => h.1.trans hb) fun h => h.2.2)
    have hextended : s.extended v (logAfter (s.node v) req) = merge (s.whole v) m := by
      rw [hafter]
      exact hwhole
    refine ⟨a₂, hd₃.goes, ?_⟩
    rw [hextended]
    have hnext := h.setNode_quiet hw hd₃ hinv₂ hquiet fun hcandidate => by
      rw [hfollower] at hcandidate
      cases hcandidate
    refine hnext.addAnswer hc fun x hx => ?_
    cases hout : ((s.node v).handleAppendEntries cb now req).2 with
    | error e =>
      rw [hout] at hx
      cases hx
    | ok resp =>
      rw [hout] at hx
      cases hx
      refine ⟨fun req' resp' hreq _ _ j _ hj => ?_,
        fun req covered resp _ hans => by cases hans⟩
      cases hreq
      have hacked := hacks j (by
        rw [hdrop, List.length_drop] at hj
        omega)
      rwa [hterm] at hacked

/-! ### Snapshots -/

lemma setInstall (h : Tracks base Q a s) {i : Option Install}
    (hi : ∀ x, i = some x → (∃ c, s.calls[x.call]? = some c ∧ c.target = v ∧
      c.rpc = .snapshot x.request x.covered) ∧
      x.request.term ≤ (s.node v).state.currentTerm ∧
      ((s.node v).role ≠ .kFollower → x.request.term < (s.node v).state.currentTerm)) :
    Tracks base Q a { s with installs := Function.update s.installs v i } :=
  { h with
    install := fun {w x} hx => by
      rcases Elections.Inv.of_update hx with ⟨rfl, hnew⟩ | ⟨-, hold⟩
      · exact hi x hnew
      · exact h.install hold }

/-- An answer of the term of the request tells that the node holds what the snapshot covers. -/
lemma answer_snapshot {c : Call} {req : InstallSnapshotRequest} {covered : List LogEntry} {t : ℕ}
    (hrpc : c.rpc = .snapshot req covered)
    (h : req.term < t ∨ ∀ j, 0 < j → j ≤ req.lastIncludedIndex →
      a.ack c.target req.term j) :
    Answered a c (.snapshot ⟨t⟩) where
  append := fun req' resp _ hans => by cases hans
  snapshot := fun req' covered' resp hreq hans => by
    cases hans
    cases hrpc.symm.trans hreq
    exact h

theorem installCheck (h : Tracks base Q a s) (hw : Watches base cb Q) {call now : ℕ}
    (hs : s.step? cb (.installCheck call now) = some s') :
    ∃ v a', Goes base v a a' ∧ Tracks base Q a' s' := by
  simp only [Cluster.step?] at hs
  split at hs
  case h_2 => cases hs
  rename_i caller v req covered waiting hc
  split_ifs at hs with hfree
  cases hs
  have hserver := h.server v
  have hquiet := Quiet.run cb (s.node v) (.installCheck now req)
  obtain ⟨-, ⟨E, hE, -⟩, -, -⟩ := h.call (List.mem_of_getElem? hc)
  obtain ⟨a₁, hd₁, helection, -⟩ := hserver.heardFrom hw h.inv now req.term req.leaderId
  have hinv₁ := h.inv.steps hd₁.goes.steps
  refine ⟨v, ?_⟩
  rcases installCheck_cases now (s.node v) req with ⟨hlt, heq⟩ | ⟨hle, hnode, hanswer⟩
  · rw [heq]
    have hnext := h.setNode_quiet hw hserver.refl h.inv (.refl _) fun _ => rfl
    refine ⟨a, .refl a, hnext.addAnswer hc fun x hx => ?_⟩
    cases hx
    exact answer_snapshot rfl (.inl hlt)
  have hterm := heardFrom_currentTerm (s.node v) now req.term req.leaderId hle
  have hrole := heardFrom_role (s.node v) now req.term req.leaderId
  rw [Handler.run, hnode] at hquiet
  rw [hnode, hanswer]
  split_ifs with hcovered
  · -- the log is already cut behind the snapshot
    obtain ⟨a₂, hd₂, hacks⟩ := hd₁.server.holdCompacted hw hinv₁ (E := E)
      (by rw [hterm, helection]; exact hE)
    have hd := hd₁.trans hd₂ fun _ _ => id
    have hnext := h.setNode_quiet hw hd (h.inv.steps hd.goes.steps) hquiet fun _ => rfl
    refine ⟨a₂, hd.goes, hnext.addAnswer hc fun x hx => ?_⟩
    cases hx
    refine answer_snapshot rfl (.inr fun j _ hj => ?_)
    have hacked := hacks j (by rw [heardFrom_log]; exact hj.trans hcovered)
    rwa [hterm] at hacked
  · have hnext := h.setNode_quiet hw hd₁ hinv₁ hquiet fun _ => rfl
    refine ⟨a₁, hd₁.goes, hnext.setInstall fun x hx => ?_⟩
    cases hx
    have hself : (s.setNode v ((s.node v).heardFrom now req.term req.leaderId) (s.whole v)).node v =
        (s.node v).heardFrom now req.term req.leaderId := Function.update_self ..
    rw [hself]
    exact ⟨⟨_, hc, rfl, rfl⟩, hterm.ge, fun hcompetes => absurd hrole hcompetes⟩

theorem installRestore (h : Tracks base Q a s) (hw : Watches base cb Q)
    (hs : s.step? cb (.installRestore v) = some s') : Tracks base Q a s' := by
  simp only [Cluster.step?] at hs
  split at hs
  case h_2 => cases hs
  rename_i call req covered hi
  cases hs
  have hserver := h.server v
  have hd : Does base Q a a v (s.whole v) ((s.node v).installRestore cb req) :=
    hserver.refl.of_agrees (hserver.agrees.setMachine
      (hw.restore req.data hserver.agrees.machine)) rfl
  have hnext := h.setNode_quiet hw hd h.inv (.of_eq rfl rfl rfl rfl) fun _ => rfl
  refine hnext.setInstall fun x hx => ?_
  cases hx
  have hself : (s.setNode v ((s.node v).installRestore cb req) (s.whole v)).node v =
      (s.node v).installRestore cb req := Function.update_self ..
  rw [hself]
  have hold := h.install hi
  exact hold

lemma covered_prefix (h : Tracks base Q a s) {req : InstallSnapshotRequest}
    {covered : List LogEntry}
    (hcovers : Covers base a req covered)
    (hlt : (s.node v).log.snapshotIndex < req.lastIncludedIndex)
    (hterm : (s.node v).log.termAt req.lastIncludedIndex = req.lastIncludedTerm) :
    covered <+: s.whole v := by
  have hserver := h.server v
  have hne : covered ≠ [] := by
    rintro rfl
    have := hcovers.index
    simp only [List.length_nil] at this
    omega
  obtain ⟨t, k, m, hcommit, -, hpre⟩ := Server.covered_lead hcovers.committed hne
  have hroot : Rooted a.lead covered :=
    (h.inv.lead_rooted t).of_isPrefix (hpre.trans (List.take_prefix _ _))
  rw [hserver.agrees.holds.termAt hlt.le, ← hcovers.index, ← hcovers.term] at hterm
  have hpos := h.inv.termOf_pos hroot (i := covered.length)
    (by rw [hcovers.index]; omega) le_rfl
  have hle := exists_of_termOf_ne_zero (l := s.whole v) (i := covered.length) (by omega)
  have hmatch := (hserver.rooted h.inv).matches hroot _ hle.2 le_rfl hterm
  rw [List.take_length] at hmatch
  exact hmatch ▸ List.take_prefix _ _

theorem installAdopt (h : Tracks base Q a s) (hw : Watches base cb Q)
    (hok : Careful s (.installAdopt v)) (hs : s.step? cb (.installAdopt v) = some s') :
    ∃ a', Goes base v a a' ∧ Tracks base Q a' s' := by
  simp only [Cluster.step?] at hs
  split at hs
  case h_2 => cases hs
  rename_i call req covered hi
  cases hs
  have hserver := h.server v
  have hquiet := Quiet.run cb (s.node v) (.installAdopt req)
  obtain ⟨⟨c, hc, htarget, hrpc⟩, hle, hlow⟩ := h.install hi
  dsimp only at hc hrpc hle hlow
  obtain ⟨-, ⟨E, hE, -⟩, -, hcovers⟩ := h.call (List.mem_of_getElem? hc)
  have hcovers := hcovers req covered hrpc
  rw [hrpc, Rpc.term] at hE
  obtain ⟨a₁, hd₁, hsnap, hconfig⟩ : ∃ a₁, Does base Q a a₁ v
      (if req.lastIncludedIndex > (s.node v).log.snapshotIndex then
        covered ++ ((s.node v).adopted req).log.entries else s.whole v)
      ((s.node v).installAdopt req).1 ∧
      req.lastIncludedIndex ≤ ((s.node v).installAdopt req).1.log.snapshotIndex ∧
      ((s.node v).role = .kCandidate → config base
        (if req.lastIncludedIndex > (s.node v).log.snapshotIndex then
          covered ++ ((s.node v).adopted req).log.entries else s.whole v) =
        config base (s.whole v)) := by
    rcases (s.node v).installAdopt_cases req with ⟨hcovered, heq⟩ | ⟨hlt, heq⟩ <;> rw [heq]
    · rw [if_neg (by omega)]
      exact ⟨a, hserver.refl, hcovered, fun _ => rfl⟩
    · obtain ⟨a₁, hd₁, hindex, hwhole, hconfig⟩ :=
        hserver.adopt hw h.inv hcovers.index hcovers.term hcovers.committed hle hlow
          hcovers.members hlt fun hrole =>
          (hok _ hi hrole).imp_left (h.covered_prefix hcovers hlt)
      rw [if_pos hlt, hwhole]
      refine ⟨a₁, hd₁, ?_, hconfig⟩
      rw [refreshMembership_log]
      exact hindex.ge
  have hinv₁ := h.inv.steps hd₁.goes.steps
  have hcandidate : ((s.node v).installAdopt req).1.role = .kCandidate →
      (s.node v).role = .kCandidate := fun hrole => by
    by_contra hne
    exact hquiet.not_candidate hne hrole
  have hstate : ((s.node v).installAdopt req).1.state = (s.node v).state := by
    rcases (s.node v).installAdopt_cases req with ⟨-, heq⟩ | ⟨-, heq⟩ <;> rw [heq]
    rw [refreshMembership_state]
    rfl
  -- an answer in the term of the call acknowledges what the snapshot covers
  obtain ⟨a', hd, hanswered⟩ : ∃ a', Does base Q a a' v
      (if req.lastIncludedIndex > (s.node v).log.snapshotIndex then
        covered ++ ((s.node v).adopted req).log.entries else s.whole v)
      ((s.node v).installAdopt req).1 ∧
      (req.term < (s.node v).state.currentTerm ∨
        ∀ j, 0 < j → j ≤ req.lastIncludedIndex → a'.ack c.target req.term j) := by
    rcases Nat.lt_or_eq_of_le hle with hlt | heq
    · exact ⟨a₁, hd₁, .inl hlt⟩
    · obtain ⟨a₂, hd₂, hacks⟩ := hd₁.server.holdCompacted hw hinv₁ (E := E)
        (by rw [hstate, ← heq]; exact hd₁.goes.election hE)
      refine ⟨a₂, hd₁.trans hd₂ fun _ _ => id, .inr fun j _ hj => ?_⟩
      have hacked := hacks j (hj.trans hsnap)
      rwa [hstate, ← heq, ← htarget] at hacked
  refine ⟨a', hd.goes, ?_⟩
  have hnext := h.setNode_quiet hw hd (h.inv.steps hd.goes.steps) hquiet fun hrole =>
    hconfig (hcandidate hrole)
  refine setInstall (hnext.addAnswer hc fun x hx => ?_) fun x hx => by cases hx
  cases hout : ((s.node v).installAdopt req).2 with
  | error e =>
    rw [hout] at hx
    cases hx
  | ok resp =>
    rw [hout] at hx
    cases hx
    rw [installAdopt_response hout, hstate]
    exact answer_snapshot hrpc hanswered

end Tracks

end DistDB.ClusterModel
