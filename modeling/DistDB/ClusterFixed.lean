import DistDB.ClusterRuns

/-!
Clusters whose members do not change: no conf change is proposed, so none is in any log or on
its way, and every node that acts knows the first members. The conditions on changes of the
members are then all met (`Fixed.careful`).
-/

namespace DistDB.ClusterModel

open NodeModel NodeModel.Node Elections Agreement Config FullLog TermLog
open Consensus (Goes Committed)

variable {σ : Type} {base : Finset NodeId} {Q : History → σ → Prop} {cb : Callbacks σ}
  {a a' : History} {s s' : Cluster σ} {v : NodeId} {n : Node σ} {l m : List LogEntry}

/-- No conf change is proposed. -/
def FixedEvent : Event σ → Prop
  | .propose _ command => ¬ IsConfChange command
  | _ => True

/-- The entries are no conf changes. -/
def Steady (l : List LogEntry) : Prop := ∀ e ∈ l, ¬ IsConfChange e.command

lemma Steady.of_subset (h : Steady m) (hl : l ⊆ m) : Steady l := fun e he => h e (hl he)

lemma Steady.append (hl : Steady l) (hm : Steady m) : Steady (l ++ m) := fun e he =>
  (List.mem_append.mp he).elim (hl e) (hm e)

lemma Steady.plain (h : Steady l) : Config.Plain l := fun e he => by
  rw [change_eq, Option.map_eq_none_iff]
  have hnot := h e he
  unfold confChange
  unfold IsConfChange at hnot
  cases hdecode : tryDecodeConfChange e.command with
  | error x => rfl
  | ok cc =>
    cases cc with
    | none => rfl
    | some cc => exact absurd ⟨cc, hdecode⟩ hnot

lemma Steady.config (h : Steady l) : config base l = base := config_plain h.plain

/-! ### The invariant -/

/-- No change is in a log or on its way, and requests go to members only. -/
structure Fixed (base : Finset NodeId) (s : Cluster σ) : Prop where
  member : ∀ v ∈ base, Elections.Fixed base v (s.node v)
  whole : ∀ v, Steady (s.whole v)
  round : ∀ {v p}, (v, p) ∈ s.rounds → p ∈ base
  send : ∀ {v p t}, (v, p, t) ∈ s.sending → p ∈ base
  ends : ∀ {c}, c ∈ s.calls → c.caller ∈ base ∧ c.target ∈ base
  append : ∀ {c req}, c ∈ s.calls → c.rpc = .append req → Steady req.entries
  snapshot : ∀ {c req covered}, c ∈ s.calls → c.rpc = .snapshot req covered → Steady covered

namespace Fixed

lemma setNode (h : Fixed base s) (hn : v ∈ base → Elections.Fixed base v n) (hl : Steady l) :
    Fixed base (s.setNode v n l) :=
  { h with
    member := fun w hw => by
      by_cases hwv : w = v
      · subst hwv
        rw [show (s.setNode w n l).node w = n from Function.update_self ..]
        exact hn hw
      · rw [show (s.setNode v n l).node w = s.node w from Function.update_of_ne hwv ..]
        exact h.member w hw
    whole := fun w => by
      by_cases hw : w = v
      · subst hw
        rw [show (s.setNode w n l).whole w = l from Function.update_self ..]
        exact hl
      · rw [show (s.setNode v n l).whole w = s.whole w from Function.update_of_ne hw ..]
        exact h.whole w }

lemma addCall (h : Fixed base s) {c : Call} (hends : c.caller ∈ base ∧ c.target ∈ base)
    (happend : ∀ req, c.rpc = .append req → Steady req.entries)
    (hsnapshot : ∀ req covered, c.rpc = .snapshot req covered → Steady covered) :
    Fixed base { s with calls := s.calls ++ [c] } :=
  { h with
    ends := fun hc => by
      rcases List.mem_append.mp hc with hold | hnew
      · exact h.ends hold
      · rw [List.mem_singleton.mp hnew]
        exact hends
    append := fun hc hrpc => by
      rcases List.mem_append.mp hc with hold | hnew
      · exact h.append hold hrpc
      · rw [List.mem_singleton.mp hnew] at hrpc
        exact happend _ hrpc
    snapshot := fun hc hrpc => by
      rcases List.mem_append.mp hc with hold | hnew
      · exact h.snapshot hold hrpc
      · rw [List.mem_singleton.mp hnew] at hrpc
        exact hsnapshot _ _ hrpc }

lemma drop (h : Fixed base s) {rounds : List (NodeId × NodeId)}
    {sending : List (NodeId × NodeId × ℕ)} {calls : List Call}
    (hrounds : ∀ r ∈ rounds, r ∈ s.rounds) (hsending : ∀ r ∈ sending, r ∈ s.sending)
    (hcalls : ∀ c ∈ calls, ∃ c₀ ∈ s.calls,
      c₀.caller = c.caller ∧ c₀.target = c.target ∧ c₀.rpc = c.rpc) :
    Fixed base { s with rounds := rounds, sending := sending, calls := calls } where
  member := h.member
  whole := h.whole
  round := fun hr => h.round (hrounds _ hr)
  send := fun hr => h.send (hsending _ hr)
  ends := fun hc => by
    obtain ⟨c₀, hc₀, hcaller, htarget, -⟩ := hcalls _ hc
    exact ⟨hcaller ▸ (h.ends hc₀).1, htarget ▸ (h.ends hc₀).2⟩
  append := fun hc hrpc => by
    obtain ⟨c₀, hc₀, -, -, hsame⟩ := hcalls _ hc
    exact h.append hc₀ (hsame.trans hrpc)
  snapshot := fun hc hrpc => by
    obtain ⟨c₀, hc₀, -, -, hsame⟩ := hcalls _ hc
    exact h.snapshot hc₀ (hsame.trans hrpc)

lemma stopCall (h : Fixed base s) (call : ℕ) : Fixed base (s.stopCall call) := by
  refine h.drop (fun r hr => hr) (fun r hr => hr) fun c hc => ?_
  obtain ⟨k, hk⟩ := List.mem_iff_getElem?.mp hc
  rw [List.getElem?_modify] at hk
  obtain ⟨c₀, hc₀, heq⟩ := Option.map_eq_some_iff.mp hk
  refine ⟨c₀, List.mem_of_getElem? hc₀, ?_⟩
  split at heq <;> cases heq <;> exact ⟨rfl, rfl, rfl⟩

lemma log (h : Fixed base s) (ht : Tracks base Q a s) (v : NodeId) :
    Elections.Plain (s.node v).log := fun e he => by
  rw [(ht.server v).agrees.holds.entries] at he
  exact h.whole v e (List.mem_of_mem_drop he)

lemma knows (h : Fixed base s) (ht : Tracks base Q a s) (hrole : (s.node v).role ≠ .kFollower) :
    Knows v (s.node v) base := by
  have hknows := (ht.server v).agrees.knows hrole
  rwa [(h.whole v).config] at hknows

lemma leader_mem (h : Fixed base s) (ht : Tracks base Q a s) (hrole : (s.node v).role = .kLeader) :
    v ∈ base := by
  have hplain := (h.whole v).plain
  rcases ((ht.server v).agrees.leads hrole).counted with hmember | ⟨i, e, he, hremove, -⟩
  · rwa [(h.whole v).config] at hmember
  · rw [hplain e (List.mem_of_getElem? he)] at hremove
    cases hremove

/-- **The conditions on changes of the members** are met where none is proposed. -/
theorem careful (h : Fixed base s) (ht : Tracks base Q a s) {e : Event σ} (hok : FixedEvent e) :
    Careful s e := by
  cases e with
  | election e =>
    cases e with
    | startElection v =>
      intro hrole
      have hsound := (ht.server v).agrees.sound_base (by rw [hrole]; decide)
      have hknows := hsound.knows
      rw [(h.whole v).config] at hknows
      exact (hknows.self.mpr (h.leader_mem ht hrole)).2
    | _ => trivial
  | sendInstallSnapshot v peer term =>
    intro hrole
    have hsound := (ht.server v).agrees.sound_base (by rw [hrole]; decide)
    refine ⟨?_, (h.knows ht (by rw [hrole]; decide)).self.mpr (h.leader_mem ht hrole)⟩
    rw [confChanges_eq hsound.holds hsound.decodable_log hsound.compacted, changesOf_eq_nil.mpr]
    exact ((h.whole v).of_subset fun e he => List.mem_of_mem_drop (List.mem_of_mem_take he)).plain
  | appendEntries call now =>
    intro c req hc hrpc
    refine .inl (.inr fun hnone => ?_)
    obtain ⟨hcaller, htarget⟩ := h.ends (List.mem_of_getElem? hc)
    have hin : c.caller ∈ (s.node c.target).membershipState.basePeers.keys := by
      rw [(h.member _ htarget).base]
      exact Finset.mem_erase.mpr ⟨(ht.call (List.mem_of_getElem? hc)).other.symm, hcaller⟩
    rw [OrdMap.keys, hnone] at hin
    cases hin
  | installAdopt v =>
    intro i hi hrole
    obtain ⟨⟨c, hc, -, hrpc⟩, -⟩ := ht.install hi
    have hc := List.mem_of_getElem? hc
    have hmembers := ((ht.call hc).covers _ _ hrpc).members
    rw [(h.snapshot hc hrpc).config] at hmembers
    have hmember := ((ht.server v).agrees.stands hrole).member
    rw [(h.whole v).config] at hmember
    exact .inr (hmembers.trans ((h.knows ht (by rw [hrole]; decide)).ids hmember).symm)
  | propose v command => exact fun cc hcc => absurd ⟨cc, hcc⟩ hok
  | _ => trivial

/-! ### Every event keeps it -/

lemma keep (h : Fixed base s) (hn : v ∈ base → Elections.Fixed base v n) :
    Fixed base (s.setNode v n (s.whole v)) := h.setNode hn (h.whole v)

lemma handled (h : Fixed base s) (cb : Callbacks σ) (v : NodeId) (handler : Handler)
    (hlog : ∀ now req log, handler = .appendEntries now req →
      (s.node v).log.appendEntriesFrom req.prevLogIndex req.prevLogTerm req.entries = some log →
      Steady req.entries)
    (hadopt : ∀ req, handler = .installAdopt req → req.membership.keys = base)
    (hpropose : ∀ command, handler = .propose command → ¬ IsConfChange command)
    (hv : v ∈ base) :
    Elections.Fixed base v (handler.run cb (s.node v)) := by
  have hmember := h.member v hv
  refine (stable_fixed base v).run hmember handler (fun now req log heq hsome => ?_)
    (fun req heq => ?_) fun command heq _ => ?_
  · exact ⟨hmember.id, hmember.peers, hmember.base,
      hmember.plain.appendEntriesFrom (hlog now req log heq hsome) hsome⟩
  · refine ⟨hmember.id, hmember.peers, ?_, ?_⟩
    · show (req.membership.erase (s.node v).id).keys = _
      rw [OrdMap.keys_erase, hadopt req heq, hmember.id]
    · rw [adopted_log]
      split
      · exact hmember.plain.compactTo _ _
      · exact hmember.plain.compactTo _ _
  · exact ⟨hmember.id, hmember.peers, hmember.base, hmember.plain.append _
      (hpropose command heq)⟩

lemma quiet (h : Fixed base s) (cb : Callbacks σ) (v : NodeId) (handler : Handler)
    (hlog : ∀ now req, handler ≠ .appendEntries now req)
    (hadopt : ∀ req, handler ≠ .installAdopt req)
    (hpropose : ∀ command, handler ≠ .propose command) :
    Fixed base (s.setNode v (handler.run cb (s.node v)) (s.whole v)) :=
  h.keep fun hv => h.handled cb v handler (fun now req _ heq _ => absurd heq (hlog now req))
    (fun req heq => absurd heq (hadopt req)) (fun command heq => absurd heq (hpropose command)) hv

lemma election (h : Fixed base s) {e : Elections.Event σ}
    (hs : s.step? cb (.election e) = some s') : Fixed base s' := by
  simp only [Cluster.step?] at hs
  split_ifs at hs with hof
  obtain ⟨group, hgroup, rfl⟩ := Option.map_eq_some_iff.mp hs
  suffices hmember : ∀ v ∈ base, Elections.Fixed base v (group.nodes v) from
    ⟨hmember, h.whole, h.round, h.send, h.ends, h.append, h.snapshot⟩
  have hset : ∀ v n, (v ∈ base → Elections.Fixed base v n) → ∀ w ∈ base,
      Elections.Fixed base w ((s.group.setNode v n).nodes w) := fun v n hn =>
    (h.keep hn).member
  cases e with
  | startElection v =>
    cases hgroup
    exact hset v _ fun hv => (stable_fixed base v).startElection (h.member v hv)
  | callVote v peer =>
    simp only [RaftGroup.step?] at hgroup
    split at hgroup
    · cases hgroup
    · split_ifs at hgroup
      cases hgroup
      exact h.member
  | requestVote call now =>
    simp only [RaftGroup.step?] at hgroup
    split at hgroup
    · cases hgroup
    · rename_i c hc
      cases hgroup
      exact hset c.target _ fun hv =>
        (stable_fixed base c.target).handleRequestVote (h.member _ hv) now c.request
  | voteReply call answer =>
    simp only [RaftGroup.step?] at hgroup
    split at hgroup
    · rename_i c call' resp hc hans
      split_ifs at hgroup
      cases hgroup
      exact hset c.caller _ fun hv =>
        (stable_fixed base c.caller).voteReply (h.member _ hv) c.request.term resp
    · cases hgroup
  | voteLost call =>
    cases hgroup
    exact h.member
  | handle v handler => cases hof
  | crash v disk machine => cases hof

lemma replicateToAll (h : Fixed base s) (ht : Tracks base Q a s) {v : NodeId}
    (hs : s.step? cb (.replicateToAll v) = some s') : Fixed base s' := by
  simp only [Cluster.step?] at hs
  split_ifs at hs with hrole
  cases hs
  have hknows := h.knows ht (by rw [hrole]; decide)
  exact {
    h with
    round := fun hmem => by
      rcases List.mem_append.mp hmem with hold | hnew
      · exact h.round hold
      · obtain ⟨q, hq, heq⟩ := List.mem_map.mp hnew
        cases heq
        refine Finset.mem_of_mem_erase (a := v) ?_
        rw [← hknows.peers, OrdMap.keys, List.mem_toFinset]
        exact List.mem_map_of_mem hq }

lemma replicateTo (h : Fixed base s) (ht : Tracks base Q a s) {v peer : NodeId}
    (hs : s.step? cb (.replicateTo v peer) = some s') : Fixed base s' := by
  simp only [Cluster.step?] at hs
  split_ifs at hs with hround
  cases hs
  have hquiet := h.quiet cb v (.replicateTo peer) (by simp) (by simp) (by simp)
  have hnext : Fixed base { s.setNode v ((s.node v).replicateTo peer).1 (s.whole v) with
      rounds := s.rounds.erase (v, peer) } :=
    hquiet.drop (fun r hr => List.mem_of_mem_erase hr) (fun r hr => hr)
      fun c hc => ⟨c, hc, rfl, rfl, rfl⟩
  rcases (s.node v).replicateTo_cases peer with
    hnone | ⟨hrole, hsend⟩ | ⟨hrole, next, -, -, hsend⟩
  · rw [hnone]
    exact hnext
  · rw [hsend]
    exact {
      hnext with
      send := fun hmem => by
        rcases List.mem_append.mp hmem with hold | hnew
        · exact h.send hold
        · cases List.mem_singleton.mp hnew
          exact h.round hround }
  · rw [hsend]
    refine hnext.addCall ⟨h.leader_mem ht hrole, h.round hround⟩ (fun req hreq => ?_)
      fun req covered hreq => by cases hreq
    cases hreq
    intro e he
    obtain ⟨i, -, hi⟩ := List.mem_filterMap.mp he
    exact h.log ht v e (RaftLog.get_mem hi)

lemma sendInstallSnapshot (h : Fixed base s) (ht : Tracks base Q a s) {v peer : NodeId} {term : ℕ}
    (hs : s.step? cb (.sendInstallSnapshot v peer term) = some s') : Fixed base s' := by
  simp only [Cluster.step?] at hs
  split_ifs at hs with hsending
  cases hs
  have hquiet := h.quiet cb v (.sendInstallSnapshot peer term) (by simp) (by simp)
    (by simp)
  have hnext : Fixed base
      { s.setNode v ((s.node v).sendInstallSnapshot cb peer term).1 (s.whole v) with
        sending := s.sending.erase (v, peer, term) } :=
    hquiet.drop (fun r hr => hr) (fun r hr => List.mem_of_mem_erase hr)
      fun c hc => ⟨c, hc, rfl, rfl, rfl⟩
  rcases @sendInstallSnapshot_cases σ cb (s.node v) peer term with hnone | ⟨hrole, -, hsend⟩
  · rw [hnone]
    exact hnext
  · rw [hsend]
    refine hnext.addCall ⟨h.leader_mem ht hrole, h.send hsending⟩
      (fun req hreq => by cases hreq) fun req covered hreq => ?_
    cases hreq
    exact (h.whole v).of_subset (List.take_subset _ _)

lemma appendEntries (h : Fixed base s) (ht : Tracks base Q a s) {call now : ℕ}
    (hs : s.step? cb (.appendEntries call now) = some s') : Fixed base s' := by
  simp only [Cluster.step?] at hs
  split at hs
  · rename_i caller v req waiting hc
    cases hs
    have hentries := h.append (List.mem_of_getElem? hc) rfl
    have hnext := h.setNode (v := v) (l := s.extended v (logAfter (s.node v) req))
      (fun hv => h.handled cb v (.appendEntries now req)
        (fun now' req' _ heq _ => by cases heq; exact hentries) (by simp) (by simp) hv) ?_
    · exact { hnext with }
    · refine ((h.whole v).of_subset (List.take_subset _ _)).append ?_
      unfold logAfter
      split_ifs
      · exact h.log ht v
      · cases hsome : (s.node v).log.appendEntriesFrom req.prevLogIndex req.prevLogTerm
          req.entries with
        | none => exact h.log ht v
        | some log => exact (h.log ht v).appendEntriesFrom hentries hsome
  · cases hs

lemma installAdopt (h : Fixed base s) (ht : Tracks base Q a s) {v : NodeId}
    (hs : s.step? cb (.installAdopt v) = some s') : Fixed base s' := by
  simp only [Cluster.step?] at hs
  split at hs
  · rename_i call req covered hi
    cases hs
    obtain ⟨⟨c, hc, -, hrpc⟩, -⟩ := ht.install hi
    have hc := List.mem_of_getElem? hc
    have hcovered := h.snapshot hc hrpc
    have hmembers := ((ht.call hc).covers _ _ hrpc).members
    rw [hcovered.config] at hmembers
    have hnext := h.setNode (v := v) (l := if req.lastIncludedIndex > (s.node v).log.snapshotIndex
        then covered ++ ((s.node v).adopted req).log.entries else s.whole v)
      (fun hv => h.handled cb v (.installAdopt req) (by simp)
        (fun req' heq => by cases heq; exact hmembers) (by simp) hv) ?_
    · exact { hnext with }
    · split_ifs
      · refine hcovered.append ?_
        rw [adopted_log]
        split
        · exact (h.log ht v).compactTo _ _
        · exact (h.log ht v).compactTo _ _
      · exact h.whole v
  · cases hs

lemma propose (h : Fixed base s) (ht : Tracks base Q a s) {v : NodeId} {command : Bytes}
    (hok : ¬ IsConfChange command) (hs : s.step? cb (.propose v command) = some s') :
    Fixed base s' := by
  simp only [Cluster.step?] at hs
  have hmember := h.handled cb v (.propose command) (by simp) (by simp)
    fun command' heq => by cases heq; exact hok
  split_ifs at hs
  · cases hs
    have hnext := h.setNode (l := s.extended v ((s.node v).log.append
      (s.node v).state.currentTerm command).1) hmember
      (((h.whole v).of_subset (List.take_subset _ _)).append ((h.log ht v).append _ hok))
    exact { hnext with }
  · cases hs
    exact h.keep hmember

lemma restart (h : Fixed base s) {v : NodeId} {machine : σ}
    (hs : s.step? cb (.restart v machine) = some s') : Fixed base s' := by
  simp only [Cluster.step?] at hs
  obtain ⟨group, hgroup, rfl⟩ := Option.map_eq_some_iff.mp hs
  simp only [RaftGroup.step?] at hgroup
  split_ifs at hgroup with hdisk
  cases hgroup
  have hstarted := h.keep (n := construct v (s.node v).state (s.node v).log
    (s.node v).membershipState machine) fun hv =>
      ⟨rfl, (h.member v hv).base, (h.member v hv).base, (h.member v hv).plain⟩
  have hnext := hstarted.drop
    (fun r (hr : r ∈ s.rounds.filter fun r => r.1 ≠ v) => (List.mem_filter.mp hr).1)
    (fun r (hr : r ∈ s.sending.filter fun r => r.1 ≠ v) => (List.mem_filter.mp hr).1)
    fun c (hc : c ∈ s.calls.map fun c => if c.caller = v then c.stop else c) => by
      obtain ⟨c₀, hc₀, heq⟩ := List.mem_map.mp hc
      refine ⟨c₀, hc₀, ?_⟩
      split at heq <;> cases heq <;> exact ⟨rfl, rfl, rfl⟩
  exact ⟨hnext.member, h.whole, hnext.round, hnext.send, hnext.ends,
    hnext.append, hnext.snapshot⟩

/-- **Every event** keeps the members as they are. -/
theorem step (h : Fixed base s) (ht : Tracks base Q a s) {e : Event σ} (hok : FixedEvent e)
    (hs : s.step? cb e = some s') : Fixed base s' := by
  cases e with
  | election e => exact h.election hs
  | replicateToAll v => exact h.replicateToAll ht hs
  | replicateTo v peer => exact h.replicateTo ht hs
  | sendInstallSnapshot v peer term => exact h.sendInstallSnapshot ht hs
  | appendEntries call now => exact h.appendEntries ht hs
  | appendReply call answer =>
    simp only [Cluster.step?] at hs
    split at hs
    · rename_i caller target req call' resp hc hans
      split_ifs at hs
      cases hs
      exact (h.quiet cb caller (.appendReply target req.term req.prevLogIndex
        req.entries.length resp) (by simp) (by simp) (by simp)).stopCall call
    · cases hs
  | installCheck call now =>
    simp only [Cluster.step?] at hs
    split at hs
    · rename_i caller v req covered waiting hc
      split_ifs at hs
      cases hs
      have hnext := h.quiet cb v (.installCheck now req) (by simp) (by simp) (by simp)
      split <;> exact { hnext with }
    · cases hs
  | installRestore v =>
    simp only [Cluster.step?] at hs
    split at hs
    · rename_i call req covered hi
      cases hs
      have hnext := h.quiet cb v (.installRestore req) (by simp) (by simp) (by simp)
      exact { hnext with }
    · cases hs
  | installAdopt v => exact h.installAdopt ht hs
  | snapshotReply call answer =>
    simp only [Cluster.step?] at hs
    split at hs
    · rename_i caller target req covered call' resp hc hans
      split_ifs at hs
      cases hs
      exact (h.quiet cb caller (.snapshotReply target req.term req.lastIncludedIndex resp)
        (by simp) (by simp) (by simp)).stopCall call
    · cases hs
  | lost call =>
    simp only [Cluster.step?] at hs
    split at hs
    · rename_i caller target rpc hc
      cases hs
      exact (h.quiet cb caller (.replicationLost target) (by simp) (by simp)
        (by simp)).stopCall call
    · cases hs
  | propose v command => exact h.propose ht hok hs
  | finish proposal =>
    simp only [Cluster.step?] at hs
    split at hs
    · split_ifs at hs
      cases hs
      exact { h with }
    · cases hs
  | compact v =>
    cases hs
    exact h.keep fun hv => (stable_fixed base v).compact (h.member v hv)
  | restart v machine => exact h.restart hs

end Fixed

end DistDB.ClusterModel
