import DistDB.ClusterTakes

/-!
Runs of a cluster whose members change with care: each event is a few steps of the agreement
(`Tracks.step`), so every state of the run is tracked (`tracks_run`).
-/

namespace DistDB.ClusterModel

open NodeModel NodeModel.Node Elections Agreement Config FullLog TermLog
open Consensus (Goes Committed)

variable {σ : Type} {base : Finset NodeId} {Q : History → σ → Prop} {cb : Callbacks σ}
  {a a' : History} {s s' : Cluster σ} {v : NodeId}

namespace Tracks

/-! ### The rest of the events -/

lemma compact (h : Tracks base Q a s) (hw : Watches base cb Q)
    (hs : s.step? cb (.compact v) = some s') : Tracks base Q a s' := by
  cases hs
  have hagrees := (h.server v).agrees.compact
  obtain ⟨errors, log, membership, heq⟩ := (s.node v).compact_frame
  rw [heq] at hagrees ⊢
  exact h.setNode_quiet hw ((h.server v).refl.of_agrees hagrees rfl) h.inv
    (.of_eq rfl rfl rfl rfl) fun _ => rfl

lemma finish (h : Tracks base Q a s) {proposal : ℕ}
    (hs : s.step? cb (.finish proposal) = some s') : Tracks base Q a s' := by
  simp only [Cluster.step?] at hs
  split at hs
  case h_2 => cases hs
  split_ifs at hs
  cases hs
  refine h.setProposals fun p hp => ?_
  obtain ⟨k, hk⟩ := List.mem_iff_getElem?.mp hp
  rw [List.getElem?_modify] at hk
  obtain ⟨p₀, hp₀, heq⟩ := Option.map_eq_some_iff.mp hk
  refine ⟨p₀, List.mem_of_getElem? hp₀, ?_⟩
  split at heq <;> cases heq <;> exact ⟨rfl, rfl, rfl⟩

lemma restart (h : Tracks base Q a s) (hw : Watches base cb Q) {machine : σ}
    (hmachine : Q a machine) (hs : s.step? cb (.restart v machine) = some s') :
    Tracks base Q a s' := by
  simp only [Cluster.step?] at hs
  obtain ⟨group, hgroup, rfl⟩ := Option.map_eq_some_iff.mp hs
  simp only [RaftGroup.step?] at hgroup
  split_ifs at hgroup with hdisk
  cases hgroup
  have hserver := h.server v
  have hnode : construct v (s.node v).state (s.node v).log (s.node v).membershipState machine =
      (s.node v).restart machine := by
    unfold Node.restart
    rw [hserver.agrees.id]
  rw [hnode]
  have hd : Does base Q a a v (s.whole v) ((s.node v).restart machine) :=
    hserver.refl.of_agrees (hserver.agrees.restart hmachine) rfl
  have hstarted := h.setNode hw hd h.inv (fun hcompetes _ => absurd rfl hcompetes)
    fun hcandidate => by cases hcandidate
  rw [setNode_same] at hstarted
  have hvotes : Tracks base Q a
      { s with group := (s.group.setNode v ((s.node v).restart machine)).stopThreads v } := by
    refine hstarted.setVotes (fun w k hk => ?_) fun c hc => ?_
    · rcases Elections.Inv.of_update hk with ⟨-, hnone⟩ | ⟨-, hold⟩
      · cases hnone
      · exact h.campaign hold
    · obtain ⟨c₀, hc₀, heq⟩ := List.mem_map.mp hc
      have hkept := And.intro (hstarted.voteCall hc₀) (hstarted.asked hc₀)
      split at heq <;> cases heq <;> exact hkept
  have hstopped : (s.calls.map fun c => if c.caller = v then c.stop else c).map Call.stop =
      s.calls.map Call.stop := by
    rw [List.map_map]
    refine List.map_congr_left fun c _ => ?_
    dsimp only [Function.comp]
    split <;> rfl
  have hinstalls : ∀ w i, Function.update s.installs v none w = some i →
      s.installs w = some i := by
    intro w i hi
    rcases Elections.Inv.of_update hi with ⟨-, hnone⟩ | ⟨-, hold⟩
    · cases hnone
    · exact hold
  have hdropped := (hvotes.endCalls hstopped).drop
    (fun r (hr : r ∈ s.rounds.filter fun r => r.1 ≠ v) => (List.mem_filter.mp hr).1)
    (fun r (hr : r ∈ s.sending.filter fun r => r.1 ≠ v) => (List.mem_filter.mp hr).1) hinstalls
  refine hdropped.setProposals fun p hp => ?_
  obtain ⟨p₀, hp₀, heq⟩ := List.mem_map.mp hp
  refine ⟨p₀, hp₀, ?_⟩
  split at heq <;> cases heq <;> exact ⟨rfl, rfl, rfl⟩

theorem election (h : Tracks base Q a s) (hvotes : Elections.Inv s.group) (hw : Watches base cb Q)
    {e : Elections.Event σ} (hok : Careful s (.election e))
    (hs : s.step? cb (.election e) = some s') : ∃ v a', Goes base v a a' ∧
    Tracks base Q a' s' := by
  simp only [Cluster.step?] at hs
  split_ifs at hs with hof
  obtain ⟨group, hgroup, rfl⟩ := Option.map_eq_some_iff.mp hs
  cases e with
  | startElection v =>
    cases hgroup
    exact ⟨v, h.startElection hvotes hw hok⟩
  | callVote v peer =>
    simp only [RaftGroup.step?] at hgroup
    split at hgroup
    case h_1 => cases hgroup
    rename_i k hk
    split_ifs at hgroup with hpeer
    cases hgroup
    exact ⟨v, a, .refl a, h.callVote hk hpeer.1⟩
  | requestVote call now =>
    simp only [RaftGroup.step?] at hgroup
    split at hgroup
    case h_1 => cases hgroup
    rename_i c hc
    cases hgroup
    exact ⟨c.target, h.requestVote hvotes hw hc now⟩
  | voteReply call answer =>
    simp only [RaftGroup.step?] at hgroup
    split at hgroup
    case h_2 => cases hgroup
    rename_i c call' resp hc hans
    split_ifs at hgroup with hcall
    obtain ⟨hwaiting, rfl⟩ := hcall
    cases hgroup
    exact ⟨c.caller, h.voteReply hvotes hw hc hwaiting hans⟩
  | voteLost call =>
    cases hgroup
    exact ⟨0, a, .refl a, h.endVoteCalls fun c hc => mem_stopCall hc⟩
  | handle v handler => cases hof
  | crash v disk machine => cases hof

/-- **Every event** of a cluster is a few steps of the agreement. -/
theorem step (h : Tracks base Q a s) (hvotes : Elections.Inv s.group) (hcb : cb.Total)
    (hw : Watches base cb Q) {e : Event σ} (hok : Careful s e)
    (hmachine : ∀ v machine, e = .restart v machine → Q a machine)
    (hs : s.step? cb e = some s') : ∃ v a', Goes base v a a' ∧ Tracks base Q a' s' := by
  cases e with
  | election e => exact h.election hvotes hw hok hs
  | replicateToAll v => exact ⟨v, a, .refl a, h.replicateToAll hvotes hs⟩
  | replicateTo v peer => exact ⟨v, a, .refl a, h.replicateTo hcb hw hs⟩
  | sendInstallSnapshot v peer term =>
    exact ⟨v, a, .refl a, h.sendInstallSnapshot hcb hw hok hs⟩
  | appendEntries call now => exact h.appendEntries hcb hw hok hs
  | appendReply call answer => exact h.appendReply hvotes hcb hw hs
  | installCheck call now => exact h.installCheck hw hs
  | installRestore v => exact ⟨v, a, .refl a, h.installRestore hw hs⟩
  | installAdopt v => exact ⟨v, h.installAdopt hw hok hs⟩
  | snapshotReply call answer => exact h.snapshotReply hcb hw hs
  | lost call => exact ⟨0, a, .refl a, h.lost hcb hw hs⟩
  | propose v command => exact ⟨v, h.propose hcb hw hok hs⟩
  | finish proposal => exact ⟨0, a, .refl a, h.finish hs⟩
  | compact v => exact ⟨v, a, .refl a, h.compact hw hs⟩
  | restart v machine => exact ⟨v, a, .refl a, h.restart hw (hmachine v machine rfl) hs⟩

end Tracks

/-- What stays as the agreement goes on. -/
structure Grows (base : Finset NodeId) (a a' : History) : Prop where
  lead : ∀ t, a.lead t <+: a'.lead t
  election : ∀ {t E}, a.election t = some E → a'.election t = some E
  committed : ∀ {u l i}, Committed a u l i → Committed a' u l i

lemma Grows.refl (base : Finset NodeId) (a : History) : Grows base a a :=
  ⟨fun _ => List.prefix_refl _, id, id⟩

lemma Grows.trans {a'' : History} (h : Grows base a a') (h' : Grows base a' a'') :
    Grows base a a'' where
  lead := fun t => (h.lead t).trans (h'.lead t)
  election := fun hE => h'.election (h.election hE)
  committed := fun hc => h'.committed (h.committed hc)

lemma Grows.of_goes (hinv : Consensus.Inv base a) {x : NodeId} (h : Goes base x a a') :
    Grows base a a' := ⟨h.lead, h.election, fun hc => hc.mono hinv h le_rfl⟩

/-- A run goes with a run of the agreement. -/
theorem tracks_from (hcb : cb.Total) (hw : Watches base cb Q) (h : Tracks base Q a s)
    (hvotes : Elections.Inv s.group)
    (hrun : Reach (StepOf? (Cluster.step? cb)) (fun s e => Careful s e ∧
      ∀ v machine, e = .restart v machine →
        ∀ a, Q a (s.node v).machine → Q a machine) s s') :
    ∃ a', Grows base a a' ∧ Tracks base Q a' s' ∧ Elections.Inv s'.group := by
  refine hrun.invariant
    (I := fun s => ∃ a', Grows base a a' ∧ Tracks base Q a' s ∧ Elections.Inv s.group)
    ⟨a, .refl base a, h, hvotes⟩ ?_
  rintro s₁ e s₂ ⟨a₁, hgrows, htracks, hinv⟩ ⟨hok, hmachine⟩ hs
  obtain ⟨v, a₂, hgoes, htracks'⟩ := htracks.step hinv hcb hw hok
    (fun v machine he => hmachine v machine he _ (htracks.server v).agrees.machine) hs
  exact ⟨a₂, hgrows.trans (.of_goes htracks.inv hgoes), htracks', votes_step hinv hs⟩

variable {own : NodeId → PeerAddress} {peers : NodeId → OrdMap NodeId PeerAddress}
  {machine : NodeId → σ}

lemma votes_boot (hpeers : ∀ v ∈ base, (peers v).keys = base.erase v) :
    Elections.Inv (Cluster.boot base own peers machine).group where
  apart := fun v => by
    unfold Cluster.boot Cluster.init RaftGroup.init
    dsimp only
    split_ifs with hv
    · have hself : v ∉ (peers v).keys := by
        rw [hpeers v hv]
        exact Finset.notMem_erase v base
      exact ⟨rfl, hself, hself⟩
    · have hself : v ∉ (OrdMap.empty : OrdMap NodeId PeerAddress).keys := fun hin => by cases hin
      exact ⟨rfl, hself, hself⟩
  later := fun h => by cases h
  once := fun ⟨_, h⟩ => by cases h
  campaign := fun h => by cases h
  called := fun h => by cases h
  call := fun h => by cases h
  distinct := List.nodup_nil
  answer := fun h => by cases h
  counted := fun {v} h => by
    refine absurd ?_ h
    unfold Cluster.boot Cluster.init RaftGroup.init
    dsimp only
    split_ifs <;> rfl

lemma server_boot (hpeers : ∀ v ∈ base, (peers v).keys = base.erase v)
    (hmachine : ∀ v, Q Consensus.St.init (machine v)) (v : NodeId) :
    Server base Q Consensus.St.init v [] ((Cluster.boot base own peers machine).node v) := by
  have hproper : ∀ t, Proper ((Consensus.St.init : History).lead t) := fun t =>
    ⟨Holds.empty.indexed, fun e he => by cases he⟩
  have hnoted : ∀ n : Node σ, n.role = .kFollower → n.nextIndex = .empty →
      n.matchIndex = .empty → Noted n := fun n hrole hnext hmatch => by
    refine ⟨fun p i hp => ?_, fun p hp => ?_, fun hleader => ?_⟩
    · rw [hnext] at hp
      cases hp
    · rw [hmatch] at hp
      cases hp
    · rw [hrole] at hleader
      cases hleader
  have hsound : ∀ (b : Finset NodeId) (n : Node σ), n.id = v → n.log = .empty →
      n.lastApplied = 0 → n.commitIndex = 0 → Stored v n b → Sound b v [] n :=
        fun b n hid hlog happlied hcommit hstored => {
    id := hid
    holds := hlog ▸ Holds.empty
    decodable := fun e he => by cases he
    stored := by
      rw [List.take_nil]
      exact hstored
    compacted := by rw [hlog]; exact Nat.zero_le _
    saved := by rw [hlog, happlied]; rfl
    applied := happlied.trans hcommit.symm
    committed := hcommit.le }
  unfold Cluster.boot Cluster.init RaftGroup.init Cluster.node
  dsimp only
  split_ifs with hv
  · refine ⟨.of_follower rfl
      ⟨base, .inl rfl, hsound base _ rfl rfl rfl rfl ⟨hpeers v hv, ?_⟩⟩
      (Consensus.committed_zero _ _ _) (hnoted _ rfl rfl rfl) (hmachine v), rfl, rfl,
      (fun c hc => by cases hc), hproper⟩
    exact iff_of_true rfl hv
  · refine ⟨.of_follower rfl
      ⟨∅, .inr ⟨rfl, rfl, rfl⟩, hsound ∅ _ rfl rfl rfl rfl ⟨rfl, ?_⟩⟩
      (Consensus.committed_zero _ _ _) (hnoted _ rfl rfl rfl) (hmachine v), rfl, rfl,
      (fun c hc => by cases hc), hproper⟩
    exact iff_of_false (by simp [bootstrap, construct]) (Finset.notMem_empty v)

lemma tracks_boot (hpeers : ∀ v ∈ base, (peers v).keys = base.erase v)
    (hmachine : ∀ v, Q Consensus.St.init (machine v)) :
    Tracks base Q Consensus.St.init (Cluster.boot base own peers machine) where
  inv := Consensus.Inv.init
  server := server_boot hpeers hmachine
  saved := fun h => by cases h
  voted := fun h => by cases h
  campaign := fun h => by cases h
  voteCall := fun h => by cases h
  asked := fun h => by cases h
  round := fun h => by cases h
  send := fun h => by cases h
  call := fun h => by cases h
  answer := fun h => by cases h
  install := fun h => by cases h
  proposal := fun h => by cases h

/-- **The simulation**: in every run from the first start whose members change with care, the
agreement tracks the cluster. -/
theorem tracks_run (hcb : cb.Total) (hw : Watches base cb Q)
    (hpeers : ∀ v ∈ base, (peers v).keys = base.erase v)
    (hmachine : ∀ v, Q Consensus.St.init (machine v))
    (hrun : Reach (StepOf? (Cluster.step? cb)) (fun s e => Careful s e ∧
      ∀ v machine, e = .restart v machine → ∀ a, Q a (s.node v).machine → Q a machine)
      (Cluster.boot base own peers machine) s) :
    ∃ a, Tracks base Q a s ∧ Elections.Inv s.group :=
  let ⟨a, _, htracks, hinv⟩ :=
    tracks_from hcb hw (tracks_boot hpeers hmachine) (votes_boot hpeers) hrun
  ⟨a, htracks, hinv⟩

end DistDB.ClusterModel
