import DistDB.ConsensusRuns
import DistDB.NodeApply

/-!
A Raft node against the agreement on a log (`Agrees`): its term and its whole log are those of
the agreement, what it takes for committed is committed, and it competes or leads in its term
only with the members that its log puts in force.

Every move of a node keeps this. Where a function of a node is more than moves, it is a few
steps of the agreement.
-/

namespace DistDB.Agreement

open NodeModel NodeModel.Node Consensus Config FullLog TermLog

variable {σ : Type}

/-- The agreement of nodes on their logs. -/
abbrev History := St NodeId LogEntry

/-- A candidate has stood with its log, or with one that cannot win any more. -/
structure Stands (base : Finset NodeId) (a : History) (v : NodeId) (l : List LogEntry)
    (n : Node σ) : Prop where
  member : v ∈ config base l
  ballot : ∃ b, a.ballot v n.state.currentTerm b ∧ config base b = config base l ∧
    (b = l ∨ Lacks a n.state.currentTerm b)
  fresh : ∀ E, a.election n.state.currentTerm = some E → E.winner ≠ v

/-- The last change in the log removes the node, in this term. -/
def Removed (v : NodeId) (t : ℕ) (l : List LogEntry) : Prop :=
  ∃ i e, l[i]? = some e ∧ change e = some (.remove v) ∧ term e = t ∧
    ∀ (j : ℕ) e', i < j → l[j]? = some e' → change e' = none

/-- A leader has won its term, and what it has noted of its peers has happened. -/
structure Leads (base : Finset NodeId) (a : History) (v : NodeId) (l : List LogEntry)
    (n : Node σ) : Prop where
  won : ∃ E, a.election n.state.currentTerm = some E ∧ E.winner = v
  counted : v ∈ config base l ∨ Removed v n.state.currentTerm l
  acked : ∀ p i, n.matchIndex.find p = some i → ∀ j, 0 < j → j ≤ i →
    a.ack p n.state.currentTerm j
  next : ∀ p i, n.nextIndex.find p = some i → i ≤ l.length + 1

/-- The node with the whole log `l` is server `v` of the agreement. `Q` is what is said of its
machine. A server that joins has no log and no members at first. -/
structure Agrees (base : Finset NodeId) (Q : History → σ → Prop) (a : History) (v : NodeId)
    (l : List LogEntry) (n : Node σ) : Prop where
  sound : ∃ b, (b = base ∨ (b = ∅ ∧ l = [] ∧ n.role = .kFollower)) ∧ Sound b v l n
  committed : Committed a n.state.currentTerm l n.commitIndex
  noted : Noted n
  knows : n.role ≠ .kFollower → Knows v n (config base l)
  stands : n.role = .kCandidate → Stands base a v l n
  leads : n.role = .kLeader → Leads base a v l n
  machine : Q a n.machine

/-- What is said of the machines stays true as the agreement goes on, when a committed entry
is executed, and when a snapshot is restored. -/
structure Watches (base : Finset NodeId) (cb : Callbacks σ)
    (Q : History → σ → Prop) : Prop where
  goes : ∀ {a a' x m}, Inv base a → Goes base x a a' → Q a m → Q a' m
  execute : ∀ {a u l i j e m}, Inv base a → Committed a u l i → j < i → l[j]? = some e →
    e.index = j + 1 → Q a m → Q a (execute cb m e.index e.command)
  restore : ∀ {a m} data, Q a m → Q a (cb.restore m data)

lemma watches_nothing (base : Finset NodeId) (cb : Callbacks σ) :
    Watches base cb fun _ _ => True := ⟨fun _ _ _ => trivial, fun _ _ _ _ _ _ => trivial,
  fun _ _ => trivial⟩

namespace Agrees

variable {base : Finset NodeId} {cb : Callbacks σ} {Q : History → σ → Prop} {a a' : History}
  {v x : NodeId} {l : List LogEntry} {n n' : Node σ}

lemma id (h : Agrees base Q a v l n) : n.id = v := let ⟨_, _, hs⟩ := h.sound; hs.id

lemma holds (h : Agrees base Q a v l n) : Holds n.log l := let ⟨_, _, hs⟩ := h.sound; hs.holds

lemma compacted (h : Agrees base Q a v l n) : n.log.snapshotIndex ≤ n.commitIndex :=
  let ⟨_, _, hs⟩ := h.sound
  hs.compacted.trans hs.applied.le

lemma applied (h : Agrees base Q a v l n) : n.lastApplied = n.commitIndex :=
  let ⟨_, _, hs⟩ := h.sound; hs.applied

lemma sound_base (h : Agrees base Q a v l n) (hrole : n.role ≠ .kFollower) :
    Sound base v l n := by
  obtain ⟨b, rfl | ⟨-, -, hfollower⟩, hs⟩ := h.sound
  · exact hs
  · exact absurd hfollower hrole

/-! ### Changes of a node -/

lemma of_follower (hrole : n.role = .kFollower)
    (hsound : ∃ b, (b = base ∨ (b = ∅ ∧ l = [] ∧ n.role = .kFollower)) ∧ Sound b v l n)
    (hcommitted : Committed a n.state.currentTerm l n.commitIndex) (hnoted : Noted n)
    (hmachine : Q a n.machine) : Agrees base Q a v l n where
  sound := hsound
  committed := hcommitted
  noted := hnoted
  knows := fun h => absurd hrole h
  stands := fun h => by rw [hrole] at h; cases h
  leads := fun h => by rw [hrole] at h; cases h
  machine := hmachine

lemma follow (h : Agrees base Q a v l n) {p : PersistentState} (leaderHint : NodeId)
    (contact : Option ℕ) (hterm : n.state.currentTerm ≤ p.currentTerm) :
    Agrees base Q a v l { n with
      state := p
      role := .kFollower
      lastLeaderContact := contact
      leaderHint := leaderHint } := by
  obtain ⟨b, hb, hs⟩ := h.sound
  refine of_follower rfl ⟨b, ?_, hs.congr rfl rfl rfl rfl rfl⟩ ?_ ?_ h.machine
  · exact hb.imp_right fun ⟨hnone, hnil, _⟩ => ⟨hnone, hnil, rfl⟩
  · obtain ⟨hle, hrest⟩ := h.committed
    exact ⟨hle, hrest.imp_right fun ⟨t, k, m, hc, ht, hpre⟩ =>
      ⟨t, k, m, hc, ht.trans hterm, hpre⟩⟩
  · exact ⟨h.noted.next, h.noted.matched, fun hrole => by cases hrole⟩

lemma becomeFollower (h : Agrees base Q a v l n) (t : ℕ) :
    Agrees base Q a v l (n.becomeFollower t) := by
  refine h.follow n.leaderHint n.lastLeaderContact ?_
  split
  · rename_i hlt
    exact hlt.le
  · exact le_rfl

lemma heardFrom (h : Agrees base Q a v l n) (now t : ℕ) (leaderId : NodeId) :
    Agrees base Q a v l (n.heardFrom now t leaderId) := by
  unfold Node.heardFrom
  dsimp only
  split
  · exact (h.becomeFollower t).follow leaderId (some now) le_rfl
  · rename_i hcheck
    have hrole : n.role = .kFollower := by
      by_contra hne
      exact hcheck (.inr hne)
    have hfollow := h.follow (p := n.state) leaderId (some now) le_rfl
    rwa [← hrole] at hfollow

lemma revote (h : Agrees base Q a v l n) (votedFor : Option NodeId) (votes : ℕ) :
    Agrees base Q a v l { n with
      state := ⟨n.state.currentTerm, votedFor⟩
      votesReceived := votes } := by
  obtain ⟨b, hb, hs⟩ := h.sound
  exact {
    sound := ⟨b, hb, hs.congr rfl rfl rfl rfl rfl⟩
    committed := h.committed
    noted := ⟨h.noted.next, h.noted.matched, h.noted.all⟩
    knows := fun hrole => ⟨(h.knows hrole).peers, (h.knows hrole).self⟩
    stands := fun hrole =>
      ⟨(h.stands hrole).member, (h.stands hrole).ballot, (h.stands hrole).fresh⟩
    leads := fun hrole => ⟨(h.leads hrole).won, (h.leads hrole).counted, (h.leads hrole).acked,
      (h.leads hrole).next⟩
    machine := h.machine }

lemma setMachine (h : Agrees base Q a v l n) {machine : σ} (hmachine : Q a machine) :
    Agrees base Q a v l { n with machine := machine } := by
  obtain ⟨b, hb, hs⟩ := h.sound
  exact {
    sound := ⟨b, hb, hs.congr rfl rfl rfl rfl rfl⟩
    committed := h.committed
    noted := ⟨h.noted.next, h.noted.matched, h.noted.all⟩
    knows := fun hrole => ⟨(h.knows hrole).peers, (h.knows hrole).self⟩
    stands := fun hrole =>
      ⟨(h.stands hrole).member, (h.stands hrole).ballot, (h.stands hrole).fresh⟩
    leads := fun hrole => ⟨(h.leads hrole).won, (h.leads hrole).counted, (h.leads hrole).acked,
      (h.leads hrole).next⟩
    machine := hmachine }

lemma acknowledged (h : Agrees base Q a v l n) (hrole : n.role = .kLeader) {p : NodeId} {i : ℕ}
    (hp : p ∈ n.peers.keys) (hacked : ∀ j, 0 < j → j ≤ i → a.ack p n.state.currentTerm j)
    (hle : i ≤ l.length) : Agrees base Q a v l (n.acknowledged p i) := by
  obtain ⟨b, hb, hs⟩ := h.sound
  exact {
    sound := ⟨b, hb, hs.congr rfl rfl rfl rfl rfl⟩
    committed := h.committed
    noted := {
      next := fun q j hq hpos => by
        rw [acknowledged_nextIndex, OrdMap.find_insert] at hq
        split_ifs at hq with heq
        · exact heq ▸ hp
        · exact h.noted.next q j hq hpos
      matched := by
        rw [acknowledged_matchIndex, OrdMap.keys_insert]
        exact Finset.insert_subset hp h.noted.matched
      all := fun _ => by
        rw [acknowledged_matchIndex, OrdMap.keys_insert, h.noted.all hrole]
        exact Finset.insert_eq_of_mem hp }
    knows := fun hrole => ⟨(h.knows hrole).peers, (h.knows hrole).self⟩
    stands := fun hrole =>
      ⟨(h.stands hrole).member, (h.stands hrole).ballot, (h.stands hrole).fresh⟩
    leads := fun hrole => {
      won := (h.leads hrole).won
      counted := (h.leads hrole).counted
      acked := fun q i' hq j hj hji => by
        rw [acknowledged_matchIndex, OrdMap.find_insert] at hq
        split_ifs at hq with heq
        · obtain rfl := Option.some.inj hq
          exact heq ▸ hacked j hj hji
        · exact (h.leads hrole).acked q i' hq j hj hji
      next := fun q i' hq => by
        rw [acknowledged_nextIndex, OrdMap.find_insert] at hq
        split_ifs at hq with heq
        · rw [← Option.some.inj hq]
          omega
        · exact (h.leads hrole).next q i' hq }
    machine := h.machine }

lemma goes (h : Agrees base Q a v l n) (hw : Watches base cb Q) (hinv : Inv base a)
    (hgoes : Goes base x a a') (hfresh : n.role = .kCandidate → x = v →
      a'.election n.state.currentTerm = a.election n.state.currentTerm) :
    Agrees base Q a' v l n where
  sound := h.sound
  committed := h.committed.mono hinv hgoes le_rfl
  noted := h.noted
  knows := h.knows
  stands := fun hrole => by
    obtain ⟨hmember, ⟨b, hb, hconfig, hlog⟩, hnone⟩ := h.stands hrole
    refine ⟨hmember,
      ⟨b, hgoes.ballot hb, hconfig, hlog.imp_right fun hl => hl.mono hinv hgoes⟩,
      fun E hE hwinner => ?_⟩
    rcases hgoes.elected hE with hold | hx
    · exact hnone E hold hwinner
    · rw [hfresh hrole (hx.symm.trans hwinner)] at hE
      exact hnone E hE hwinner
  leads := fun hrole => by
    obtain ⟨⟨E, hE, hwinner⟩, hcounted, hacked, hnext⟩ := h.leads hrole
    exact ⟨⟨E, hgoes.election hE, hwinner⟩, hcounted,
      fun p i hp j hj hji => hgoes.ack (hacked p i hp j hj hji), hnext⟩
  machine := hw.goes hinv hgoes h.machine

lemma refreshMembership (h : Agrees base Q a v l n) :
    Agrees base Q a v l n.refreshMembership.1 where
  sound := by
    obtain ⟨b, hb, hs⟩ := h.sound
    rw [refreshMembership_role]
    exact ⟨b, hb, hs.refreshMembership⟩
  committed := by
    rw [refreshMembership_state, refreshMembership_commitIndex]
    exact h.committed
  noted := h.noted.refreshMembership
  knows := fun hrole => by
    rw [refreshMembership_role] at hrole
    exact (h.sound_base hrole).knows
  stands := fun hrole => by
    rw [refreshMembership_role] at hrole
    obtain ⟨hmember, hballot, hfresh⟩ := h.stands hrole
    refine ⟨hmember, ?_, ?_⟩ <;> rw [refreshMembership_state]
    · exact hballot
    · exact hfresh
  leads := fun hrole => by
    rw [refreshMembership_role] at hrole
    obtain ⟨hwon, hcounted, hacked, hnext⟩ := h.leads hrole
    refine ⟨?_, ?_, ?_, ?_⟩
    · rwa [refreshMembership_state]
    · rwa [refreshMembership_state]
    · intro p i hp j hj hji
      rw [refreshMembership_state]
      rcases n.find_refreshMembership.2 hp with rfl | hold
      · omega
      · exact hacked p i hold j hj hji
    · intro p i hp
      rcases n.find_refreshMembership.1 hp with rfl | hold
      · omega
      · exact hnext p i hold
  machine := by
    rw [refreshMembership_machine]
    exact h.machine

lemma commit (h : Agrees base Q a v l n) (hcb : cb.Total) (hw : Watches base cb Q)
    (hinv : Inv base a) {i : ℕ} (hlt : n.commitIndex ≤ i)
    (hcommitted : Committed a n.state.currentTerm l i) :
    Agrees base Q a v l ((n.withCommitIndex i).applyCommitted cb).1 := by
  obtain ⟨b, hb, hs⟩ := h.sound
  have hsound := hs.commit hcb hlt hcommitted.1
  have hmachine : Q a ((n.withCommitIndex i).applyCommitted cb).1.machine :=
    applyCommitted_machine (P := Q a) hs.holds h.machine fun j e m _ hji he hm =>
      hw.execute hinv hcommitted hji he (hs.holds.indexed j e he) hm
  obtain ⟨last, machine, errors, log, membership, heq⟩ :=
    @applyCommitted_frame σ cb (n.withCommitIndex i)
  rw [heq] at hsound hmachine ⊢
  exact {
    sound := ⟨b, hb, hsound⟩
    committed := hcommitted
    noted := ⟨h.noted.next, h.noted.matched, h.noted.all⟩
    knows := fun hrole => ⟨(h.knows hrole).peers, (h.knows hrole).self⟩
    stands := fun hrole =>
      ⟨(h.stands hrole).member, (h.stands hrole).ballot, (h.stands hrole).fresh⟩
    leads := fun hrole => ⟨(h.leads hrole).won, (h.leads hrole).counted, (h.leads hrole).acked,
      (h.leads hrole).next⟩
    machine := hmachine }

lemma compact (h : Agrees base Q a v l n) : Agrees base Q a v l n.compact.1 := by
  obtain ⟨b, hb, hs⟩ := h.sound
  have hsound := hs.compact
  obtain ⟨errors, log, membership, heq⟩ := n.compact_frame
  rw [heq] at hsound ⊢
  exact {
    sound := ⟨b, hb, hsound⟩
    committed := h.committed
    noted := ⟨h.noted.next, h.noted.matched, h.noted.all⟩
    knows := fun hrole => ⟨(h.knows hrole).peers, (h.knows hrole).self⟩
    stands := fun hrole =>
      ⟨(h.stands hrole).member, (h.stands hrole).ballot, (h.stands hrole).fresh⟩
    leads := fun hrole => ⟨(h.leads hrole).won, (h.leads hrole).counted, (h.leads hrole).acked,
      (h.leads hrole).next⟩
    machine := h.machine }

lemma note (h : Agrees base Q a v l n) {next : OrdMap NodeId ℕ} {inFlight : Finset NodeId}
    (hnext : ∀ p i, next.find p = some i → i ≤ (n.nextIndex.find p).getD 0) :
    Agrees base Q a v l { n with nextIndex := next, replicationInFlight := inFlight } := by
  obtain ⟨b, hb, hs⟩ := h.sound
  exact {
    sound := ⟨b, hb, hs.congr rfl rfl rfl rfl rfl⟩
    committed := h.committed
    noted := {
      next := fun p i hp hpos => by
        have hle := hnext p i hp
        cases hold : n.nextIndex.find p with
        | none =>
          rw [hold, Option.getD_none] at hle
          omega
        | some j =>
          rw [hold, Option.getD_some] at hle
          exact h.noted.next p j hold (by omega)
      matched := h.noted.matched
      all := h.noted.all }
    knows := fun hrole => ⟨(h.knows hrole).peers, (h.knows hrole).self⟩
    stands := fun hrole =>
      ⟨(h.stands hrole).member, (h.stands hrole).ballot, (h.stands hrole).fresh⟩
    leads := fun hrole => ⟨(h.leads hrole).won, (h.leads hrole).counted, (h.leads hrole).acked,
      fun p i hp => by
        have hle := hnext p i hp
        cases hold : n.nextIndex.find p with
        | none =>
          rw [hold, Option.getD_none] at hle
          omega
        | some j =>
          rw [hold, Option.getD_some] at hle
          exact hle.trans ((h.leads hrole).next p j hold)⟩
    machine := h.machine }

lemma stepDown (h : Agrees base Q a v l n) : Agrees base Q a v l { n with role := .kFollower } :=
  h.follow (p := n.state) n.leaderHint n.lastLeaderContact le_rfl

/-- **Settling** keeps the agreement, with the term and the vote: the role is kept, or given
up. -/
theorem settles (h : Agrees base Q a v l n) (hcb : cb.Total) (hw : Watches base cb Q)
    (hinv : Inv base a) {commits : ℕ → ℕ → Prop} (hs : Settles cb commits n n')
    (hcommits : ∀ old i, commits old i → old < i ∧ Committed a n.state.currentTerm l i) :
    Agrees base Q a v l n' ∧ n'.state = n.state ∧
      (n'.role = n.role ∨ n'.role = .kFollower) := by
  refine Settles.keeps (P := fun m => Agrees base Q a v l m ∧ m.state = n.state ∧
    (m.role = n.role ∨ m.role = .kFollower)) hs ⟨h, rfl, .inl rfl⟩ ?_
  rintro b c ⟨hb, hstate, hrole⟩ hmove
  cases hmove with
  | refresh =>
    rw [refreshMembership_state, refreshMembership_role]
    exact ⟨hb.refreshMembership, hstate, hrole⟩
  | commit i hi =>
    obtain ⟨hlt, hcommitted⟩ := hcommits _ _ hi
    have hkept := hb.commit hcb hw hinv hlt.le (hstate ▸ hcommitted)
    obtain ⟨last, machine, errors, log, membership, heq⟩ :=
      @applyCommitted_frame σ cb (b.withCommitIndex i)
    rw [heq] at hkept ⊢
    exact ⟨hkept, hstate, hrole⟩
  | note next inFlight hnext => exact ⟨hb.note hnext, hstate, hrole⟩
  | stepDown => exact ⟨hb.stepDown, hstate, .inr rfl⟩

lemma restart (h : Agrees base Q a v l n) {machine : σ} (hmachine : Q a machine) :
    Agrees base Q a v l (n.restart machine) := by
  obtain ⟨b, hb, hs⟩ := h.sound
  refine of_follower rfl ⟨b, ?_, hs.restart machine⟩ ?_ ?_ hmachine
  · exact hb.imp_right fun ⟨hnone, hnil, _⟩ => ⟨hnone, hnil, rfl⟩
  · refine h.committed.le ?_
    show n.log.appliedIndex ≤ n.commitIndex
    rw [hs.saved, hs.applied]
  · refine ⟨fun p i hp => ?_, fun p hp => ?_, fun hrole => ?_⟩
    · cases hp
    · have := (OrdMap.mem_keys _).mp hp
      cases this
    · cases hrole

end Agrees

end DistDB.Agreement
