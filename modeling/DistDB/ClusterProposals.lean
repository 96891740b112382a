import DistDB.ClusterChanges

/-!
What a call of Propose that returns true has achieved. It compares indices only, so a call whose
entry was overwritten while it waited takes the entry of another leader for its own
(`another_committed`). Where the entry is still its own, it is the one that is committed
(`acknowledged_committed`).
-/

namespace DistDB.ClusterModel

open NodeModel NodeModel.Node Elections Agreement Config FullLog TermLog
open Consensus (Goes Committed)

variable {σ : Type} {base : Finset NodeId} {Q : History → σ → Prop} {cb : Callbacks σ}
  {own : NodeId → PeerAddress} {peers : NodeId → OrdMap NodeId PeerAddress}
  {machine : NodeId → σ} {a a' : History} {s s' : Cluster σ} {p : Proposal}

/-- When a call has the mutex again and its index is committed, its node still has an entry of
its term at the index. -/
def KeepsEntry (s : Cluster σ) : Event σ → Prop
  | .finish k => ∀ p, s.proposals[k]? = some p → p.index ≤ (s.node p.node).commitIndex →
    termOf (s.whole p.node) p.index = p.term
  | _ => True

/-- The entry of the call is committed. -/
def Proposal.Done (a : History) (p : Proposal) : Prop :=
  ∃ u l, Committed a u l p.index ∧ l[p.index - 1]? = some ⟨p.index, p.term, p.command⟩

lemma Proposal.Done.mono (h : p.Done a) (hinv : Consensus.Inv base a) {x : NodeId}
    (hgoes : Goes base x a a') : p.Done a' :=
  let ⟨u, l, hcommitted, hget⟩ := h
  ⟨u, l, hcommitted.mono hinv hgoes le_rfl, hget⟩

lemma proposals_step {e : Event σ} (hs : s.step? cb e = some s')
    (hpropose : ∀ v command, e ≠ .propose v command) (hfinish : ∀ k, e ≠ .finish k)
    (hrestart : ∀ v machine, e ≠ .restart v machine) : s'.proposals = s.proposals := by
  cases e with
  | election e =>
    simp only [Cluster.step?] at hs
    split_ifs at hs
    obtain ⟨group, -, rfl⟩ := Option.map_eq_some_iff.mp hs
    rfl
  | replicateToAll v =>
    simp only [Cluster.step?] at hs
    split_ifs at hs
    cases hs
    rfl
  | replicateTo v peer =>
    simp only [Cluster.step?] at hs
    split_ifs at hs
    cases hs
    split <;> rfl
  | sendInstallSnapshot v peer term =>
    simp only [Cluster.step?] at hs
    split_ifs at hs
    cases hs
    split <;> rfl
  | appendEntries call now =>
    simp only [Cluster.step?] at hs
    split at hs <;> cases hs
    rfl
  | appendReply call answer =>
    simp only [Cluster.step?] at hs
    split at hs
    · split_ifs at hs
      cases hs
      rfl
    · cases hs
  | installCheck call now =>
    simp only [Cluster.step?] at hs
    split at hs
    · split_ifs at hs
      cases hs
      split <;> rfl
    · cases hs
  | installRestore v =>
    simp only [Cluster.step?] at hs
    split at hs <;> cases hs
    rfl
  | installAdopt v =>
    simp only [Cluster.step?] at hs
    split at hs <;> cases hs
    rfl
  | snapshotReply call answer =>
    simp only [Cluster.step?] at hs
    split at hs
    · split_ifs at hs
      cases hs
      rfl
    · cases hs
  | lost call =>
    simp only [Cluster.step?] at hs
    split at hs <;> cases hs
    rfl
  | compact v =>
    cases hs
    rfl
  | propose v command => exact absurd rfl (hpropose v command)
  | finish k => exact absurd rfl (hfinish k)
  | restart v machine => exact absurd rfl (hrestart v machine)

lemma returned_step {e : Event σ} (hs : s.step? cb e = some s') (hp : p ∈ s'.proposals)
    (hresult : p.result = some true) :
    (∃ p₀ ∈ s.proposals, p₀.result = some true ∧ p₀.index = p.index ∧
      p₀.term = p.term ∧ p₀.command = p.command) ∨
    ∃ k p₀, e = .finish k ∧ s.proposals[k]? = some p₀ ∧
      p₀.index ≤ (s.node p₀.node).commitIndex ∧ p₀.index = p.index ∧
        p₀.term = p.term ∧ p₀.command = p.command := by
  have hsame : s'.proposals = s.proposals → ∃ p₀ ∈ s.proposals, p₀.result = some true ∧
      p₀.index = p.index ∧ p₀.term = p.term ∧ p₀.command = p.command := fun heq =>
    ⟨p, heq ▸ hp, hresult, rfl, rfl, rfl⟩
  cases e with
  | propose v command =>
    simp only [Cluster.step?] at hs
    split_ifs at hs <;> cases hs
    · rcases List.mem_append.mp hp with hold | hnew
      · exact .inl ⟨p, hold, hresult, rfl, rfl, rfl⟩
      · rw [List.mem_singleton.mp hnew] at hresult
        cases hresult
    · exact .inl (hsame rfl)
  | finish k =>
    simp only [Cluster.step?] at hs
    split at hs
    case h_2 => cases hs
    rename_i p₀ hp₀
    split_ifs at hs
    cases hs
    obtain ⟨j, hj⟩ := List.mem_iff_getElem?.mp hp
    rw [List.getElem?_modify] at hj
    obtain ⟨p₁, hp₁, heq⟩ := Option.map_eq_some_iff.mp hj
    split at heq
    · rename_i hkj
      subst hkj
      obtain rfl := Option.some.inj (hp₁.symm.trans hp₀)
      subst heq
      exact .inr ⟨k, p₁, rfl, hp₀, of_decide_eq_true
        (Option.some.inj hresult), rfl, rfl, rfl⟩
    · cases heq
      exact .inl ⟨p, List.mem_of_getElem? hp₁, hresult, rfl, rfl, rfl⟩
  | restart v machine =>
    simp only [Cluster.step?] at hs
    obtain ⟨group, -, rfl⟩ := Option.map_eq_some_iff.mp hs
    obtain ⟨p₀, hp₀, heq⟩ := List.mem_map.mp hp
    refine .inl ⟨p₀, hp₀, ?_⟩
    split at heq <;> cases heq <;> exact ⟨hresult, rfl, rfl, rfl⟩
  | _ => exact .inl (hsame (proposals_step hs (by simp) (by simp) (by simp)))

/-- A call that still has an entry of its term at its committed index has its own entry there. -/
lemma Tracks.done (h : Tracks base Q a s) (hp : p ∈ s.proposals)
    (hcommitted : p.index ≤ (s.node p.node).commitIndex)
    (hterm : termOf (s.whole p.node) p.index = p.term) : p.Done a := by
  have hserver := h.server p.node
  obtain ⟨hpos, hget⟩ := h.proposal hp
  have hstart := hserver.agrees.committed.le hcommitted
  have hlen : p.index ≤ (a.lead p.term).length := by
    have := (List.getElem?_eq_some_iff.mp hget).1
    omega
  have hlead : termOf (a.lead p.term) p.index = p.term := by
    obtain ⟨j, hj⟩ : ∃ j, p.index = j + 1 := ⟨p.index - 1, by omega⟩
    rw [hj] at hget ⊢
    exact termOf_eq_of_getElem? hget
  have htake := (hserver.rooted h.inv).matches (h.inv.lead_rooted p.term) p.index hstart.1 hlen
    (hterm.trans hlead.symm)
  refine ⟨_, _, hstart, ?_⟩
  have hat := congrArg (·[p.index - 1]?) htake
  simp only [List.getElem?_take, show p.index - 1 < p.index by omega, if_true] at hat
  exact hat.trans hget

/-- **Acknowledged writes are the committed ones**, in runs whose members change with care and in
which no call returns true after another entry has come to its index. -/
theorem acknowledged_committed (hcb : cb.Total)
    (hpeers : ∀ v ∈ base, (peers v).keys = base.erase v)
    (hrun : Reach (StepOf? (Cluster.step? cb)) (fun s e => Careful s e ∧ KeepsEntry s e)
      (Cluster.boot base own peers machine) s)
    (hp : p ∈ s.proposals) (hresult : p.result = some true) {w : NodeId}
    (hw : p.index ≤ (s.node w).commitIndex) :
    s.Has w p.index ⟨p.index, p.term, p.command⟩ := by
  obtain ⟨a, htracks, -, hdone⟩ : ∃ a, Tracks base (fun _ _ => True) a s ∧
      Elections.Inv s.group ∧ ∀ p ∈ s.proposals, p.result = some true → p.Done a := by
    refine hrun.invariant (I := fun s => ∃ a, Tracks base (fun _ _ => True) a s ∧
      Elections.Inv s.group ∧ ∀ p ∈ s.proposals, p.result = some true → p.Done a) ?_ ?_
    · exact ⟨_, tracks_boot hpeers fun _ => trivial, votes_boot hpeers,
        fun p hp => by cases hp⟩
    · rintro s e s' ⟨a, htracks, hvotes, hdone⟩ ⟨hok, hkeeps⟩ hs
      obtain ⟨v, a', hgoes, htracks'⟩ := htracks.step hvotes hcb (watches_nothing base cb) hok
        (fun _ _ _ => trivial) hs
      refine ⟨a', htracks', votes_step hvotes hs, fun p hp hresult => ?_⟩
      have hown : p.Done a := by
        rcases returned_step hs hp hresult with
          ⟨p₀, hp₀, hresult₀, hindex, hterm, hcommand⟩ |
          ⟨k, p₀, rfl, hk, hcommitted, hindex, hterm, hcommand⟩
        · have hold := hdone p₀ hp₀ hresult₀
          unfold Proposal.Done at hold ⊢
          rwa [hindex, hterm, hcommand] at hold
        · have hnow := htracks.done (List.mem_of_getElem? hk) hcommitted
            (hkeeps p₀ hk hcommitted)
          unfold Proposal.Done at hnow ⊢
          rwa [hindex, hterm, hcommand] at hnow
      exact hown.mono htracks.inv hgoes
  obtain ⟨u, l, hcommitted, hget⟩ := hdone p hp hresult
  have hstart := (htracks.server w).agrees.committed.le hw
  have hsame := hcommitted.getElem?_eq htracks.inv hstart (htracks.proposal hp).1
  exact htracks.has (hsame.symm.trans hget)

theorem acknowledged_committed_trio : ∃ s₁ s,
    runOf? (Cluster.step? noCallbacks) (trioCluster ()) oneEntry = some s₁ ∧
    s₁.step? noCallbacks (.finish 0) = some s ∧ ∃ p ∈ s.proposals, p.result = some true ∧
      s.Has 1 p.index ⟨p.index, p.term, p.command⟩ := by
  obtain ⟨s₁, hs₁, hkeeps, hnext⟩ : ∃ s₁,
      runOf? (Cluster.step? noCallbacks) (trioCluster ()) oneEntry = some s₁ ∧
      (∀ p ∈ s₁.proposals[0]?, p.index ≤ (s₁.node p.node).commitIndex →
        termOf (s₁.whole p.node) p.index = p.term) ∧
      (s₁.step? noCallbacks (.finish 0)).any (fun s => decide (∃ p ∈ s.proposals,
        p.result = some true ∧ p.index ≤ (s.node 1).commitIndex)) = true :=
          exists_of_any (by decide)
  obtain ⟨s, hs, p, hp, hresult, hcommit⟩ := exists_of_any hnext
  have hok : ∀ e ∈ oneEntry, FixedEvent e ∧
      ∀ s : Cluster Unit, KeepsEntry s e := fun e he => by
    refine ⟨fixed_oneEntry e he, fun s => ?_⟩
    simp only [oneEntry, List.mem_cons, List.not_mem_nil, or_false] at he
    rcases he with rfl | rfl | rfl | rfl | rfl | rfl | rfl | rfl | rfl <;> trivial
  have hrun : Reach (StepOf? (Cluster.step? noCallbacks))
      (fun s e => FixedEvent e ∧ KeepsEntry s e) (trioCluster ()) s₁ :=
      (reach_runOf?_of hok hs₁).mono fun s _ h => ⟨h.1, h.2 s⟩
  have hlast : FixedEvent (.finish 0 : Event Unit) ∧ KeepsEntry s₁ (.finish 0) :=
    ⟨trivial, hkeeps⟩
  exact ⟨s₁, s, hs₁, hs, p, hp, hresult, acknowledged_committed total_noCallbacks
    (fun v _ => keys_others v) (careful_of_fixed total_noCallbacks (fun v _ => keys_others v)
      (hrun.tail hlast hs)) hp hresult hcommit⟩

/-- Server 1 appends [7] in term 1. Server 2 wins term 2 with server 3, gives 1 its own entry, and
the commit index with the next heartbeat. -/
def overwritten : List (Event Unit) :=
  [.election (.startElection 1), .election (.callVote 1 2), .election (.requestVote 0 0),
    .election (.voteReply 0 0), .propose 1 [7],
    .election (.startElection 2), .election (.callVote 2 3), .election (.requestVote 1 0),
    .election (.voteReply 1 1), .propose 2 [8], .replicateToAll 2, .replicateTo 2 1,
    .appendEntries 0 0, .appendReply 0 0, .replicateToAll 2, .replicateTo 2 1,
    .appendEntries 1 0, .finish 0]

/-- The call of Propose for [7] has returned true, and [8] is committed at its index. -/
theorem another_committed : ∃ s,
    runOf? (Cluster.step? noCallbacks) (trioCluster ()) overwritten = some s ∧
    (∃ p ∈ s.proposals, p.node = 1 ∧ p.command = [7] ∧ p.term = 1 ∧ p.index = 1 ∧
      p.result = some true) ∧
    1 ≤ (s.node 1).commitIndex ∧ (s.node 1).log.get 1 = some ⟨1, 2, [8]⟩ ∧
    1 ≤ (s.node 2).commitIndex ∧ (s.node 2).log.get 1 = some ⟨1, 2, [8]⟩ :=
  exists_of_any (by decide)

end DistDB.ClusterModel
