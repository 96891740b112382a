import DistDB.Config
import DistDB.Elections

/-!
One leader in a term, for a group whose members do not change.

A candidate counts its votes with a bare number. The number is the size of a set of nodes that
have all saved their vote for the candidate in its term (`Counted`): each of them was called
once in the term, and what was counted is not waited for any more. A node saves one vote in a
term at most (`Inv.once`), and it is still there after a crash.
-/

namespace DistDB.Elections

open NodeModel NodeModel.Node Config

variable {σ : Type}

/-- The second state may be saved over the first one: the term does not fall, and in one term
no vote is taken back. -/
def Later (st st' : PersistentState) : Prop :=
  st.currentTerm < st'.currentTerm ∨
    (st.currentTerm = st'.currentTerm ∧ (st.votedFor = none ∨ st'.votedFor = st.votedFor))

lemma Later.refl (st : PersistentState) : Later st st := .inr ⟨rfl, .inr rfl⟩

lemma Later.le {st st' : PersistentState} (h : Later st st') :
    st.currentTerm ≤ st'.currentTerm := by
  rcases h with h | ⟨h, -⟩ <;> omega

lemma Later.trans {st st' st'' : PersistentState} (h : Later st st') (h' : Later st' st'') :
    Later st st'' := by
  rcases h with hlt | ⟨heq, hvote⟩
  · exact .inl (hlt.trans_le h'.le)
  · rcases h' with hlt | ⟨heq', hvote'⟩
    · exact .inl (heq ▸ hlt)
    · refine .inr ⟨heq.trans heq', ?_⟩
      rcases hvote with hnone | hsame
      · exact .inl hnone
      · rcases hvote' with hnone | hsame'
        · exact .inl (hsame ▸ hnone)
        · exact .inr (hsame'.trans hsame)

/-- The node has saved its vote for the candidate in the term. -/
def Voted (s : RaftGroup σ) (v : NodeId) (term : ℕ) (candidate : NodeId) : Prop :=
  ∃ role, (v, ⟨term, some candidate⟩, role) ∈ s.past

lemma Voted.setNode {s : RaftGroup σ} {v w candidate : NodeId} {term : ℕ}
    (h : Voted s w term candidate) (n : Node σ) : Voted (s.setNode v n) w term candidate :=
  let ⟨role, hmem⟩ := h
  ⟨role, List.mem_cons_of_mem _ hmem⟩

/-- The votes that a node has counted in its term are those of the nodes in `q`. -/
structure Counted (s : RaftGroup σ) (v : NodeId) (q : Finset NodeId) : Prop where
  self : v ∈ q
  card : q.card = (s.nodes v).votesReceived
  voted : ∀ x ∈ q, Voted s x (s.nodes v).state.currentTerm v
  asked : ∀ x ∈ q, x ≠ v → ∃ c ∈ s.voteCalls, c.caller = v ∧ c.target = x ∧
    c.request.term = (s.nodes v).state.currentTerm ∧ c.waiting = false

lemma refreshMembership_votesReceived (n : Node σ) :
    n.refreshMembership.1.votesReceived = n.votesReceived := by
  unfold refreshMembership
  split <;> rfl

lemma becomeLeader_keeps (n : Node σ) :
    n.becomeLeader.1.state = n.state ∧ n.becomeLeader.1.votesReceived = n.votesReceived := by
  rcases n.becomeLeader_cases with heq | ⟨-, heq⟩ <;> rw [heq]
  · exact ⟨n.refreshMembership_state, refreshMembership_votesReceived n⟩
  · exact ⟨n.refreshMembership_state, refreshMembership_votesReceived n⟩

/-! ### The invariant -/

structure Inv (s : RaftGroup σ) : Prop where
  apart : ∀ v, Apart v (s.nodes v)
  later : ∀ {v st r}, (v, st, r) ∈ s.past → Later st (s.nodes v).state
  once : ∀ {v t c c'}, Voted s v t c → Voted s v t c' → c = c'
  campaign : ∀ {v k}, s.campaigns v = some k →
    k.request.candidateId = v ∧ k.request.term ≤ (s.nodes v).state.currentTerm
  called : ∀ {v k c}, s.campaigns v = some k → c ∈ s.voteCalls → c.caller = v →
    c.request.term = k.request.term → c.target ∈ k.called
  call : ∀ {c}, c ∈ s.voteCalls → c.target ≠ c.caller ∧
    c.request.candidateId = c.caller ∧ c.request.term ≤ (s.nodes c.caller).state.currentTerm
  distinct : (s.voteCalls.map fun c => (c.caller, c.target, c.request.term)).Nodup
  answer : ∀ {k resp}, (k, resp) ∈ s.voteAnswers → resp.voteGranted →
    ∃ c, s.voteCalls[k]? = some c ∧ Voted s c.target c.request.term c.caller
  counted : ∀ {v}, (s.nodes v).role ≠ .kFollower → ∃ q, Counted s v q

namespace Inv

variable {s : RaftGroup σ} {v : NodeId} {n : Node σ}

/-- **A function of one node**: it saves a later state, and what it has counted is known. -/
theorem setNode (h : Inv s) (hapart : Apart v n) (hlater : Later (s.nodes v).state n.state)
    (hcounted : n.role ≠ .kFollower → ∃ q, Counted (s.setNode v n) v q) :
    Inv (s.setNode v n) := by
  have hterm : ∀ w, (s.nodes w).state.currentTerm ≤
    ((s.setNode v n).nodes w).state.currentTerm := by
    intro w
    by_cases hw : w = v
    · subst hw
      simpa [RaftGroup.setNode] using hlater.le
    · simp [RaftGroup.setNode, hw]
  have hnew : ∀ {w st r}, (w, st, r) ∈ s.past → w = v → Later st n.state :=
    fun hmem hw => (h.later (hw ▸ hmem)).trans hlater
  -- a vote of the term is still there, as the state only moves on
  have honce : ∀ {t c c'}, Voted s v t c → n.state = ⟨t, some c'⟩ → c = c' := by
    rintro t c c' ⟨r, hmem⟩ hstate
    rcases hnew hmem rfl with hlt | ⟨-, hnone | hsame⟩
    · rw [hstate] at hlt
      exact absurd hlt (lt_irrefl t)
    · cases hnone
    · rw [hstate] at hsame
      exact (Option.some.inj hsame).symm
  exact {
    apart := fun w => by
      by_cases hw : w = v
      · subst hw
        simpa [RaftGroup.setNode] using hapart
      · simpa [RaftGroup.setNode, hw] using h.apart w
    later := fun {w st r} hmem => by
      rcases List.mem_cons.mp hmem with heq | hmem
      · cases heq
        simpa [RaftGroup.setNode] using Later.refl n.state
      · by_cases hw : w = v
        · simpa [RaftGroup.setNode, hw] using hnew hmem hw
        · simpa [RaftGroup.setNode, hw] using h.later hmem
    once := fun {w t c c'} hv hv' => by
      obtain ⟨r, hmem⟩ := hv
      obtain ⟨r', hmem'⟩ := hv'
      rcases List.mem_cons.mp hmem with heq | hold <;>
        rcases List.mem_cons.mp hmem' with heq' | hold'
      · have := congrArg (fun p => p.2.1.votedFor) (heq.trans heq'.symm)
        exact Option.some.inj this
      · simp only [Prod.mk.injEq] at heq
        obtain ⟨rfl, hstate, -⟩ := heq
        exact (honce ⟨r', hold'⟩ hstate.symm).symm
      · simp only [Prod.mk.injEq] at heq'
        obtain ⟨rfl, hstate, -⟩ := heq'
        exact honce ⟨r, hold⟩ hstate.symm
      · exact h.once ⟨r, hold⟩ ⟨r', hold'⟩
    campaign := fun {w k} hk => ⟨(h.campaign hk).1, (h.campaign hk).2.trans (hterm w)⟩
    called := h.called
    call := fun {c} hc => ⟨(h.call hc).1, (h.call hc).2.1, (h.call hc).2.2.trans
      (hterm c.caller)⟩
    distinct := h.distinct
    answer := fun hmem hgrant =>
      let ⟨c, hc, hvoted⟩ := h.answer hmem hgrant
      ⟨c, hc, hvoted.setNode n⟩
    counted := fun {w} hrole => by
      by_cases hw : w = v
      · subst hw
        exact hcounted (by simpa [RaftGroup.setNode] using hrole)
      · have hsame : (s.setNode v n).nodes w = s.nodes w := by simp [RaftGroup.setNode, hw]
        obtain ⟨q, hq⟩ := h.counted (hsame ▸ hrole)
        exact ⟨q, hq.self, hsame ▸ hq.card, fun x hx => hsame ▸ (hq.voted x hx).setNode n,
          fun x hx hne => hsame ▸ hq.asked x hx hne⟩ }

lemma setNode_competes (h : Inv s) (hapart : Apart v n) (hlater : Later (s.nodes v).state n.state)
    (hrole : n.role ≠ .kFollower → (s.nodes v).role ≠ .kFollower ∧
      n.state.currentTerm = (s.nodes v).state.currentTerm ∧
      n.votesReceived = (s.nodes v).votesReceived) : Inv (s.setNode v n) := by
  refine h.setNode hapart hlater fun hcompetes => ?_
  obtain ⟨hold, hterm, hvotes⟩ := hrole hcompetes
  obtain ⟨q, hq⟩ := h.counted hold
  have hnew : (s.setNode v n).nodes v = n := by simp [RaftGroup.setNode]
  refine ⟨q, hq.self, ?_, fun x hx => ?_, fun x hx hne => ?_⟩ <;> rw [hnew]
  · rw [hq.card, hvotes]
  · rw [hterm]
    exact (hq.voted x hx).setNode n
  · rw [hterm]
    exact hq.asked x hx hne

lemma setNode_quiet (h : Inv s) (hapart : Apart v n) (hquiet : Quiet (s.nodes v) n) :
    Inv (s.setNode v n) := by
  obtain ⟨-, ⟨hstate, hrole⟩ | ⟨hterm, -, hrole⟩⟩ := hquiet
  · refine h.setNode_competes hapart (hstate ▸ Later.refl _) fun hcompetes => ?_
    rcases hrole with hrole | ⟨hrole, hvotes⟩
    · exact absurd hrole hcompetes
    · exact ⟨hrole ▸ hcompetes, by rw [hstate], hvotes⟩
  · exact h.setNode_competes hapart (.inl hterm) fun hcompetes => absurd hrole hcompetes

lemma stop_eq {c c' : VoteCall} (h : c.stop = c'.stop) :
    c.caller = c'.caller ∧ c.target = c'.target ∧ c.request = c'.request := by
  cases c
  cases c'
  simpa [VoteCall.stop] using h

lemma stop_of_not_waiting {c : VoteCall} (h : c.waiting = false) : c.stop = c := by
  cases c
  cases h
  rfl

lemma stop (h : Inv s) {calls : List VoteCall} {campaigns : NodeId → Option Campaign}
    (hcampaigns : ∀ v k, campaigns v = some k → s.campaigns v = some k)
    (hcalls : calls.map VoteCall.stop = s.voteCalls.map VoteCall.stop)
    (hstopped : ∀ c ∈ s.voteCalls, c.waiting = false → c ∈ calls) :
    Inv { s with campaigns := campaigns, voteCalls := calls } := by
  have hold : ∀ c ∈ calls, ∃ c₀ ∈ s.voteCalls,
      c₀.caller = c.caller ∧ c₀.target = c.target ∧ c₀.request = c.request := fun c hc =>
    let ⟨c₀, hc₀, heq⟩ := List.mem_map.mp (hcalls ▸ List.mem_map_of_mem hc)
    ⟨c₀, hc₀, stop_eq heq⟩
  exact {
    h with
    campaign := fun hk => h.campaign (hcampaigns _ _ hk)
    called := fun {v k c} hk hc hcaller hterm => by
      obtain ⟨c₀, hc₀, hcaller₀, htarget₀, hrequest₀⟩ := hold c hc
      exact htarget₀ ▸ h.called (hcampaigns _ _ hk) hc₀ (hcaller₀.trans hcaller)
        (hrequest₀ ▸ hterm)
    call := fun {c} hc => by
      obtain ⟨c₀, hc₀, hcaller₀, htarget₀, hrequest₀⟩ := hold c hc
      have := h.call hc₀
      rwa [hcaller₀, htarget₀, hrequest₀] at this
    distinct := by
      have hkeys := congrArg (List.map fun c => (c.caller, c.target, c.request.term)) hcalls
      rw [List.map_map, List.map_map] at hkeys
      exact hkeys ▸ h.distinct
    answer := fun {k resp} hmem hgrant => by
      obtain ⟨c₀, hc₀, hvoted⟩ := h.answer hmem hgrant
      have hk := congrArg (·[k]?) hcalls
      simp only [List.getElem?_map, hc₀, Option.map_some, Option.map_eq_some_iff] at hk
      obtain ⟨c, hc, heq⟩ := hk
      obtain ⟨hcaller, htarget, hrequest⟩ := stop_eq heq
      exact ⟨c, hc, hcaller ▸ htarget ▸ hrequest ▸ hvoted⟩
    counted := fun hrole => by
      obtain ⟨q, hq⟩ := h.counted hrole
      refine ⟨q, hq.self, hq.card, hq.voted, fun x hx hne => ?_⟩
      obtain ⟨c, hc, hcaller, htarget, hterm, hwaiting⟩ := hq.asked x hx hne
      exact ⟨c, hstopped c hc hwaiting, hcaller, htarget, hterm, hwaiting⟩ }

lemma of_update {β : Type} {f : NodeId → Option β} {x : Option β} {w : NodeId} {k : β}
    (h : Function.update f v x w = some k) : (w = v ∧ x = some k) ∨
    (w ≠ v ∧ f w = some k) := by
  by_cases hw : w = v
  · subst hw
    rw [Function.update_self] at h
    exact .inl ⟨rfl, h⟩
  · rw [Function.update_of_ne hw] at h
    exact .inr ⟨hw, h⟩

lemma stopThreads (h : Inv s) (v : NodeId) : Inv (s.stopThreads v) := by
  refine h.stop (fun w k hk => ?_) ?_ fun c hc hwaiting => ?_
  · rcases of_update hk with ⟨-, hk⟩ | ⟨-, hk⟩
    · cases hk
    · exact hk
  · rw [List.map_map]
    refine List.map_congr_left fun c _ => ?_
    dsimp only [Function.comp]
    split <;> rfl
  · refine List.mem_map.mpr ⟨c, hc, ?_⟩
    split
    · exact stop_of_not_waiting hwaiting
    · rfl

lemma stopCall (h : Inv s) (call : ℕ) : Inv (s.stopCall call) := by
  refine h.stop (fun w k hk => hk) ?_ fun c hc hwaiting => ?_
  · refine List.ext_getElem? fun k => ?_
    simp only [List.getElem?_map, List.getElem?_modify]
    split <;> cases s.voteCalls[k]? <;> rfl
  · obtain ⟨k, hk⟩ := List.mem_iff_getElem?.mp hc
    refine List.mem_iff_getElem?.mpr ⟨k, ?_⟩
    rw [List.getElem?_modify, hk]
    split
    · exact congrArg some (stop_of_not_waiting hwaiting)
    · rfl

/-! ### Steps -/

lemma setNode_standing (h : Inv s) (hapart : Apart v n)
    (hstate : n.state = ⟨(s.nodes v).state.currentTerm + 1, some v⟩)
    (hvotes : n.votesReceived = 1) :
    Inv (s.setNode v n) := by
  refine h.setNode hapart (.inl ?_) fun _ => ⟨{v}, Finset.mem_singleton_self v, ?_, ?_, ?_⟩
  · rw [hstate]
    exact Nat.lt_succ_self _
  · simpa [RaftGroup.setNode] using hvotes.symm
  · intro x hx
    rw [Finset.mem_singleton.mp hx]
    refine ⟨n.role, List.mem_cons.mpr (.inl ?_)⟩
    simp [RaftGroup.setNode, hstate]
  · intro x hx hne
    exact absurd (Finset.mem_singleton.mp hx) hne

lemma newCampaign (h : Inv s) {k : Campaign} (hid : k.request.candidateId = v)
    (hterm : k.request.term ≤ (s.nodes v).state.currentTerm)
    (hfresh : ∀ c ∈ s.voteCalls, c.caller = v → c.request.term ≠ k.request.term) :
    Inv { s with campaigns := Function.update s.campaigns v (some k) } :=
  { h with
    campaign := fun {w k'} hk => by
      rcases of_update hk with ⟨rfl, heq⟩ | ⟨-, hk⟩
      · cases heq
        exact ⟨hid, hterm⟩
      · exact h.campaign hk
    called := fun {w k' c} hk hc hcaller hsame => by
      rcases of_update hk with ⟨rfl, heq⟩ | ⟨-, hk⟩
      · cases heq
        exact absurd hsame (hfresh c hc hcaller)
      · exact h.called hk hc hcaller hsame
    counted := fun hrole =>
      let ⟨q, hq⟩ := h.counted hrole
      ⟨q, hq.self, hq.card, hq.voted, hq.asked⟩ }

lemma noCampaign (h : Inv s) (v : NodeId) :
    Inv { s with campaigns := Function.update s.campaigns v none } := by
  refine h.stop (fun w k hk => ?_) rfl fun c hc _ => hc
  rcases of_update hk with ⟨-, hk⟩ | ⟨-, hk⟩
  · cases hk
  · exact hk

lemma callVote (h : Inv s) {peer : NodeId} {k : Campaign} (hk : s.campaigns v = some k)
    (hpeer : peer ≠ v) (hnew : peer ∉ k.called) :
    Inv { s with
      campaigns := Function.update s.campaigns v (some { k with called := insert peer k.called })
      voteCalls := s.voteCalls ++ [⟨v, peer, k.request, true⟩] } := by
  obtain ⟨hid, hterm⟩ := h.campaign hk
  exact {
    h with
    campaign := fun {w k'} hk' => by
      rcases of_update hk' with ⟨rfl, heq⟩ | ⟨-, hk'⟩
      · cases heq
        exact ⟨hid, hterm⟩
      · exact h.campaign hk'
    called := fun {w k' c} hk' hc hcaller hsame => by
      rcases of_update hk' with ⟨rfl, heq⟩ | ⟨hw, hk'⟩
      · cases heq
        rcases List.mem_append.mp hc with hc | hc
        · exact Finset.mem_insert_of_mem (h.called hk hc hcaller hsame)
        · rw [List.mem_singleton.mp hc]
          exact Finset.mem_insert_self peer k.called
      · rcases List.mem_append.mp hc with hc | hc
        · exact h.called hk' hc hcaller hsame
        · rw [List.mem_singleton.mp hc] at hcaller
          exact absurd hcaller.symm hw
    call := fun {c} hc => by
      rcases List.mem_append.mp hc with hc | hc
      · exact h.call hc
      · obtain rfl := List.mem_singleton.mp hc
        exact ⟨hpeer, hid, hterm⟩
    distinct := by
      rw [List.map_append, List.nodup_append']
      refine ⟨h.distinct, List.nodup_singleton _, ?_⟩
      rw [List.disjoint_right]
      intro key hkey hold
      obtain rfl := List.mem_singleton.mp hkey
      obtain ⟨c, hc, heq⟩ := List.mem_map.mp hold
      simp only [Prod.mk.injEq] at heq
      obtain ⟨hcaller, htarget, hsame⟩ := heq
      exact hnew (htarget ▸ h.called hk hc hcaller hsame)
    answer := fun hmem hgrant => by
      obtain ⟨c, hc, hvoted⟩ := h.answer hmem hgrant
      refine ⟨c, ?_, hvoted⟩
      rw [List.getElem?_append_left (List.getElem?_eq_some_iff.mp hc).1]
      exact hc
    counted := fun hrole => by
      obtain ⟨q, hq⟩ := h.counted hrole
      refine ⟨q, hq.self, hq.card, hq.voted, fun x hx hne => ?_⟩
      obtain ⟨c, hc, hrest⟩ := hq.asked x hx hne
      exact ⟨c, List.mem_append_left _ hc, hrest⟩ }

lemma newAnswer (h : Inv s) {call : ℕ} {resp : RequestVoteResponse}
    (hvoted : resp.voteGranted → ∃ c, s.voteCalls[call]? = some c ∧
      Voted s c.target c.request.term c.caller) :
    Inv { s with voteAnswers := s.voteAnswers ++ [(call, resp)] } :=
  { h with
    answer := fun hmem hgrant => by
      rcases List.mem_append.mp hmem with hmem | hmem
      · exact h.answer hmem hgrant
      · cases List.mem_singleton.mp hmem
        exact hvoted hgrant
    counted := fun hrole =>
      let ⟨q, hq⟩ := h.counted hrole
      ⟨q, hq.self, hq.card, hq.voted, hq.asked⟩ }

/-- One more vote is counted, and its call is over: its node has not been counted before. -/
lemma setNode_counting (h : Inv s) {call : ℕ} {c : VoteCall} (hc : s.voteCalls[call]? = some c)
    (hwaiting : c.waiting) (hvoted : Voted s c.target c.request.term c.caller)
    (hapart : Apart c.caller n) (hrole : (s.nodes c.caller).role ≠ .kFollower)
    (hterm : c.request.term = (s.nodes c.caller).state.currentTerm)
    (hstate : n.state = (s.nodes c.caller).state)
    (hvotes : n.votesReceived = (s.nodes c.caller).votesReceived + 1) :
    Inv ((s.setNode c.caller n).stopCall call) := by
  have hmem := List.mem_of_getElem? hc
  obtain ⟨q, hq⟩ := h.counted hrole
  have hnew : c.target ∉ q := by
    intro hin
    obtain ⟨c', hc', hcaller, htarget, hterm', hwaiting'⟩ := hq.asked _ hin (h.call hmem).1
    have heq : c' = c := List.inj_on_of_nodup_map h.distinct hc' hmem
      (by rw [hcaller, htarget, hterm', hterm])
    rw [heq, hwaiting] at hwaiting'
    cases hwaiting'
  refine (h.stopCall call).setNode hapart (hstate ▸ Later.refl _) fun _ => ?_
  have hself : ((s.stopCall call).setNode c.caller n).nodes c.caller = n := by
    simp [RaftGroup.setNode]
  have hstopped : c.stop ∈ (s.stopCall call).voteCalls :=
    List.mem_of_getElem? (by rw [RaftGroup.stopCall, List.getElem?_modify, hc]; simp)
  refine ⟨insert c.target q, Finset.mem_insert_of_mem hq.self, ?_, fun x hx => ?_,
    fun x hx hne => ?_⟩ <;> rw [hself]
  · rw [Finset.card_insert_of_notMem hnew, hq.card, hvotes]
  · rw [hstate]
    rcases Finset.mem_insert.mp hx with rfl | hx
    · exact (hterm ▸ hvoted).setNode (s := s.stopCall call) n
    · exact (hq.voted x hx).setNode (s := s.stopCall call) n
  · rw [hstate]
    rcases Finset.mem_insert.mp hx with rfl | hx
    · exact ⟨c.stop, hstopped, rfl, rfl, hterm, rfl⟩
    · obtain ⟨c', hc', hcaller, htarget, hterm', hwaiting'⟩ := hq.asked x hx hne
      refine ⟨c', ?_, hcaller, htarget, hterm', hwaiting'⟩
      obtain ⟨k, hk⟩ := List.mem_iff_getElem?.mp hc'
      refine List.mem_iff_getElem?.mpr ⟨k, ?_⟩
      show (s.stopCall call).voteCalls[k]? = some c'
      rw [RaftGroup.stopCall, List.getElem?_modify, hk]
      split
      · exact congrArg some (stop_of_not_waiting hwaiting')
      · rfl

end Inv

lemma begun_eq_none {r : Except Exception (Option RequestVoteRequest)}
    (h : ∀ req, r ≠ .ok (some req)) : Campaign.begun r = none := by
  rcases r with e | _ | req
  · rfl
  · rfl
  · exact absurd rfl (h req)

lemma quiet_atTerm (n : Node σ) (term : ℕ) : Quiet n (n.atTerm term) := by
  unfold atTerm
  split
  · exact .becomeFollower n term
  · exact .refl n

lemma atTerm_currentTerm {n : Node σ} {term : ℕ} (h : n.state.currentTerm ≤ term) :
    (n.atTerm term).state.currentTerm = term := by
  unfold atTerm
  split
  · rename_i hlt
    simp [becomeFollower, hlt]
  · omega

namespace Inv

variable {s s' : RaftGroup σ} {cb : Callbacks σ}

lemma startElection (h : Inv s) (v : NodeId) : Inv { s.setNode v (s.nodes v).startElection.1 with
    campaigns := Function.update s.campaigns v (Campaign.begun (s.nodes v).startElection.2) } := by
  have hapart := (stable_apart v).startElection (h.apart v)
  have hid : (s.nodes v).refreshMembership.1.id = v := by rw [refreshMembership_id, (h.apart v).id]
  have hstanding : (s.nodes v).refreshMembership.1.standing.state =
      ⟨(s.nodes v).state.currentTerm + 1, some v⟩ := by
    simp only [standing, refreshMembership_state, hid]
  rcases (s.nodes v).startElection_cases with
    ⟨heq, hnone⟩ | ⟨-, heq⟩ | ⟨-, -, heq, hnone⟩
  · rw [begun_eq_none hnone]
    refine (h.setNode_quiet hapart ?_).noCampaign v
    rw [heq]
    exact .refreshMembership _
  · rw [heq] at hapart ⊢
    refine (h.setNode_standing hapart hstanding rfl).newCampaign (h.apart v).id ?_
      fun c hc hcaller hsame => ?_
    · simp [RaftGroup.setNode, hstanding]
    · have := (h.call hc).2.2
      rw [hcaller, hsame] at this
      exact Nat.not_succ_le_self _ this
  · rw [begun_eq_none hnone]
    refine (h.setNode_standing hapart ?_ ?_).noCampaign v <;> rw [heq]
    · exact (becomeLeader_keeps _).1.trans hstanding
    · exact (becomeLeader_keeps _).2

lemma requestVote (h : Inv s) {call : ℕ} {c : VoteCall} (hc : s.voteCalls[call]? = some c)
    (now : ℕ) : Inv { s.setNode c.target
      ((s.nodes c.target).handleRequestVote now c.request).1 with
      voteAnswers := s.voteAnswers ++
        [(call, ((s.nodes c.target).handleRequestVote now c.request).2)] } := by
  have hapart := (stable_apart c.target).handleRequestVote (h.apart c.target) now c.request
  rcases handleRequestVote_cases now (s.nodes c.target) c.request with
    ⟨hrefused, hnode⟩ | ⟨hterm, hvote, -, heq⟩
  · refine (h.setNode_quiet hapart ?_).newAnswer fun hgrant => ?_
    · rcases hnode with heq | ⟨-, heq⟩ <;> rw [heq]
      · exact .refl _
      · exact quiet_atTerm _ _
    · rw [hrefused] at hgrant
      cases hgrant
  · rw [heq] at hapart ⊢
    have hnow := atTerm_currentTerm hterm
    have hquiet := quiet_atTerm (s.nodes c.target) c.request.term
    refine (h.setNode_competes hapart ?_ ?_).newAnswer fun _ => ⟨c, hc, ?_⟩
    · -- the vote was free or for this candidate already
      obtain ⟨-, ⟨hstate, -⟩ | ⟨hlt, -, -⟩⟩ := hquiet
      · refine .inr ⟨by rw [votingFor, hstate], ?_⟩
        cases hold : (s.nodes c.target).state.votedFor with
        | none => exact .inl rfl
        | some d => exact .inr (by rw [votingFor, hvote d (hstate ▸ hold)])
      · exact .inl hlt
    · intro hrole
      obtain ⟨-, ⟨hstate, hfollower | ⟨hsame, hvotes⟩⟩ | ⟨-, -, hfollower⟩⟩ :=
        hquiet
      · exact absurd hfollower hrole
      · exact ⟨hsame ▸ hrole, by rw [votingFor, hstate], hvotes⟩
      · exact absurd hfollower hrole
    · refine ⟨((s.nodes c.target).atTerm c.request.term).role, List.mem_cons.mpr (.inl ?_)⟩
      rw [votingFor, hnow, (h.call (List.mem_of_getElem? hc)).2.1]

lemma voteReply (h : Inv s) {call answer : ℕ} {c : VoteCall} {resp : RequestVoteResponse}
    (hc : s.voteCalls[call]? = some c) (hwaiting : c.waiting)
    (hanswer : s.voteAnswers[answer]? = some (call, resp)) :
    Inv ((s.setNode c.caller
      ((s.nodes c.caller).voteReply c.request.term resp).1).stopCall call) := by
  have hapart := (stable_apart c.caller).voteReply (h.apart c.caller) c.request.term resp
  rcases (s.nodes c.caller).voteReply_cases c.request.term resp with
    heq | ⟨-, heq⟩ | ⟨hgrant, hrole, hterm, hcounting⟩
  · refine (h.setNode_quiet hapart ?_).stopCall call
    rw [heq]
    exact .refl _
  · refine (h.setNode_quiet hapart ?_).stopCall call
    rw [heq]
    exact .becomeFollower _ _
  · obtain ⟨c', hc', hvoted⟩ := h.answer (List.mem_of_getElem? hanswer) hgrant
    obtain rfl := Option.some.inj (hc.symm.trans hc')
    have hkeeps := becomeLeader_keeps (s.nodes c.caller).counting
    refine h.setNode_counting hc hwaiting hvoted hapart (by rw [hrole]; decide) hterm ?_ ?_ <;>
      rcases hcounting with ⟨-, heq⟩ | ⟨-, heq⟩ <;> rw [heq]
    · rfl
    · exact hkeeps.1
    · rfl
    · exact hkeeps.2

/-- What a node may find on its disk: it is no peer of its own. -/
def Sound : Event σ → Prop
  | .crash v disk _ => v ∉ disk.membership.basePeers.keys
  | _ => True

/-- **Each event keeps the invariant.** -/
theorem step (h : Inv s) {e : Event σ} (hok : Sound e) (hs : s.step? cb e = some s') : Inv s' := by
  cases e with
  | startElection v =>
    cases hs
    exact h.startElection v
  | callVote v peer =>
    simp only [RaftGroup.step?] at hs
    cases hk : s.campaigns v with
    | none => simp [hk] at hs
    | some k =>
      rw [hk] at hs
      dsimp only at hs
      split_ifs at hs with hnew
      cases hs
      exact h.callVote hk (fun heq => (h.apart v).peers (heq ▸ hnew.1)) hnew.2
  | requestVote call now =>
    simp only [RaftGroup.step?] at hs
    cases hc : s.voteCalls[call]? with
    | none => simp [hc] at hs
    | some c =>
      rw [hc] at hs
      cases hs
      exact h.requestVote hc now
  | voteReply call answer =>
    simp only [RaftGroup.step?] at hs
    split at hs
    · rename_i c call' resp hc hanswer
      split_ifs at hs with hwaits
      obtain ⟨hwaiting, rfl⟩ := hwaits
      cases hs
      exact h.voteReply hc hwaiting hanswer
    · cases hs
  | voteLost call =>
    cases hs
    exact h.stopCall call
  | handle v handler =>
    cases hs
    refine h.setNode_quiet ((stable_apart v).run (h.apart v) handler ?_ ?_ ?_) (.run cb _ handler)
    · exact fun now req log _ _ => ⟨(h.apart v).id, (h.apart v).peers, (h.apart v).base⟩
    · intro req _
      refine ⟨(h.apart v).id, (h.apart v).peers, ?_⟩
      simp [adopted, (h.apart v).id]
    · exact fun command _ _ => ⟨(h.apart v).id, (h.apart v).peers, (h.apart v).base⟩
  | crash v disk machine =>
    simp only [RaftGroup.step?] at hs
    split_ifs at hs with hstate
    cases hs
    have hapart : Apart v (construct v disk.state disk.log disk.membership machine) :=
      ⟨rfl, hok, hok⟩
    refine (h.setNode_quiet hapart ⟨(h.apart v).id.symm, ?_⟩).stopThreads v
    rcases hstate with hsame | ⟨hlt, hvote⟩
    · exact .inl ⟨hsame, .inl rfl⟩
    · exact .inr ⟨hlt, hvote, rfl⟩

end Inv

/-! ### Members that do not change -/

variable {members : Finset NodeId}

/-- The arguments of a function leave the members alone. -/
def Handler.Keeps (members : Finset NodeId) : Handler → Prop
  | .appendEntries _ req => ∀ e ∈ req.entries, ¬ IsConfChange e.command
  | .installAdopt req => req.membership.keys = members
  | .propose command => ¬ IsConfChange command
  | _ => True

/-- Only members act, and nothing changes the members. -/
def FixedMembers (members : Finset NodeId) : Event σ → Prop
  | .startElection v => v ∈ members
  | .handle v handler => v ∈ members ∧ handler.Keeps members
  | .crash v disk _ =>
    v ∈ members ∧ disk.membership.basePeers.keys = members.erase v ∧ Plain disk.log
  | _ => True

/-- More than half of the members have voted for the node in the term. -/
def Elected (members : Finset NodeId) (s : RaftGroup σ) (v : NodeId) (term : ℕ) : Prop :=
  ∃ q, Majority q members ∧ ∀ x ∈ q, Voted s x term v

/-- The invariant for members that do not change. -/
structure FixedInv (members : Finset NodeId) (s : RaftGroup σ) : Prop where
  inv : Inv s
  fixed : ∀ v, Fixed members v (s.nodes v)
  campaigner : ∀ {v}, s.campaigns v ≠ none → v ∈ members
  called : ∀ {c}, c ∈ s.voteCalls → c.caller ∈ members ∧ c.target ∈ members
  competitor : ∀ {v}, (s.nodes v).role ≠ .kFollower → v ∈ members
  leader : ∀ {v}, (s.nodes v).role = .kLeader →
    Elected members s v (s.nodes v).state.currentTerm
  led : ∀ {v st}, (v, st, .kLeader) ∈ s.past → Elected members s v st.currentTerm

namespace FixedInv

variable {s s' : RaftGroup σ} {cb : Callbacks σ} {v : NodeId} {n : Node σ}

lemma card_peers (h : Fixed members v n) (hv : v ∈ members) :
    n.peers.size + 1 = members.card := by
  rw [← OrdMap.card_keys, h.peers, Finset.card_erase_of_mem hv]
  have := Finset.card_pos.mpr ⟨v, hv⟩
  omega

/-- **A function of one node**: a leader led before, or has counted a majority. -/
theorem next (h : FixedInv members s) (hinv : Inv s') (hv : v ∈ members)
    (hnodes : s'.nodes = Function.update s.nodes v n)
    (hpast : s'.past = (v, n.state, n.role) :: s.past)
    (hcampaigns : ∀ w, s'.campaigns w ≠ none → s.campaigns w ≠ none ∨ w = v)
    (hcalls : ∀ c ∈ s'.voteCalls, c.caller ∈ members ∧ c.target ∈ members)
    (hfixed : Fixed members v n)
    (hleader : n.role = .kLeader →
      ((s.nodes v).role = .kLeader ∧
        n.state.currentTerm = (s.nodes v).state.currentTerm) ∨
      ∃ m : Node σ, Fixed members v m ∧ n.votesReceived * 2 > m.peers.size + 1) :
    FixedInv members s' := by
  have hself : s'.nodes v = n := by rw [hnodes, Function.update_self]
  have hother : ∀ w, w ≠ v → s'.nodes w = s.nodes w := fun w hw => by
    rw [hnodes, Function.update_of_ne hw]
  have hold : ∀ {w t}, Elected members s w t → Elected members s' w t :=
      fun ⟨q, hq, hvoted⟩ =>
    ⟨q, hq, fun x hx => let ⟨r, hmem⟩ := hvoted x hx
      ⟨r, hpast ▸ List.mem_cons_of_mem _ hmem⟩⟩
  have hnew : n.role = .kLeader → Elected members s' v n.state.currentTerm := by
    intro hrole
    -- a leader either was one in this term, or has just counted the votes of a majority
    rcases hleader hrole with ⟨hled, hterm⟩ | ⟨m, hm, hmajority⟩
    · rw [hterm]
      exact hold (h.leader hled)
    · obtain ⟨q, hq⟩ := hinv.counted (v := v) (by rw [hself, hrole]; decide)
      have hcard := hq.card
      have hpeers := card_peers hm hv
      rw [← hself]
      refine ⟨q, ⟨fun x hx => ?_, ?_⟩, hq.voted⟩
      · by_cases hx' : x = v
        · exact hx' ▸ hv
        · obtain ⟨c, hc, -, rfl, -⟩ := hq.asked x hx hx'
          exact (hcalls c hc).2
      · rw [hself] at hcard
        omega
  exact {
    inv := hinv
    fixed := fun w => by
      by_cases hw : w = v
      · rw [hw, hself]
        exact hfixed
      · rw [hother w hw]
        exact h.fixed w
    campaigner := fun {w} hw => (hcampaigns w hw).elim h.campaigner fun heq => heq ▸ hv
    called := fun {c} hc => hcalls c hc
    competitor := fun {w} hrole => by
      by_cases hw : w = v
      · exact hw ▸ hv
      · exact h.competitor (hother w hw ▸ hrole)
    leader := fun {w} hrole => by
      by_cases hw : w = v
      · rw [hw, hself] at hrole ⊢
        exact hnew hrole
      · rw [hother w hw] at hrole ⊢
        exact hold (h.leader hrole)
    led := fun {w st} hmem => by
      rw [hpast] at hmem
      rcases List.mem_cons.mp hmem with heq | hmem
      · simp only [Prod.mk.injEq] at heq
        obtain ⟨rfl, rfl, hrole⟩ := heq
        exact hnew hrole.symm
      · exact hold (h.led hmem) }

lemma same (h : FixedInv members s) (hinv : Inv s') (hnodes : s'.nodes = s.nodes)
    (hpast : s'.past = s.past)
    (hcampaigns : ∀ w, s'.campaigns w ≠ none → s.campaigns w ≠ none)
    (hcalls : ∀ c ∈ s'.voteCalls, c.caller ∈ members ∧ c.target ∈ members) :
    FixedInv members s' where
  inv := hinv
  fixed := fun w => hnodes ▸ h.fixed w
  campaigner := fun {w} hw => h.campaigner (hcampaigns w hw)
  called := fun {c} hc => hcalls c hc
  competitor := fun {w} hrole => h.competitor (hnodes ▸ hrole)
  leader := fun {w} hrole => by
    obtain ⟨q, hq, hvoted⟩ := h.leader (hnodes ▸ hrole)
    exact ⟨q, hq, fun x hx => let ⟨r, hmem⟩ := hvoted x hx
      ⟨r, by rw [hpast, hnodes]; exact hmem⟩⟩
  led := fun {w st} hmem => by
    obtain ⟨q, hq, hvoted⟩ := h.led (hpast ▸ hmem)
    exact ⟨q, hq, fun x hx => let ⟨r, hmem⟩ := hvoted x hx
      ⟨r, hpast ▸ hmem⟩⟩

lemma leads_of_quiet {n' : Node σ} (h : Quiet n n') (hrole : n'.role = .kLeader) :
    n.role = .kLeader ∧ n'.state.currentTerm = n.state.currentTerm := by
  obtain ⟨-, ⟨hstate, hfollower | ⟨hsame, -⟩⟩ | ⟨-, -, hfollower⟩⟩ := h
  · rw [hfollower] at hrole
    cases hrole
  · exact ⟨hsame ▸ hrole, by rw [hstate]⟩
  · rw [hfollower] at hrole
    cases hrole

lemma mem_stopCall {c : VoteCall} {call : ℕ} (hc : c ∈ (s.stopCall call).voteCalls) :
    ∃ c₀ ∈ s.voteCalls, c₀.caller = c.caller ∧ c₀.target = c.target := by
  obtain ⟨k, hk⟩ := List.mem_iff_getElem?.mp hc
  rw [RaftGroup.stopCall, List.getElem?_modify] at hk
  obtain ⟨c₀, hc₀, heq⟩ := Option.map_eq_some_iff.mp hk
  refine ⟨c₀, List.mem_of_getElem? hc₀, ?_⟩
  split at heq <;> cases heq <;> exact ⟨rfl, rfl⟩

lemma called_stopCall (h : FixedInv members s) (call : ℕ) :
    ∀ c ∈ (s.stopCall call).voteCalls, c.caller ∈ members ∧ c.target ∈ members := by
  intro c hc
  obtain ⟨c₀, hc₀, hcaller, htarget⟩ := mem_stopCall hc
  exact hcaller ▸ htarget ▸ h.called hc₀

lemma of_ne_none_update {f : NodeId → Option Campaign} {x : Option Campaign} {w : NodeId}
    (h : Function.update f v x w ≠ none) : f w ≠ none ∨ w = v := by
  by_cases hw : w = v
  · exact .inr hw
  · rw [Function.update_of_ne hw] at h
    exact .inl h

lemma startElection (h : FixedInv members s) (hinv : Inv s') {v : NodeId}
    (hv : v ∈ members) (hs : s.step? cb (.startElection v) = some s') :
    FixedInv members s' := by
  cases hs
  have hfixed := (stable_fixed members v).startElection (h.fixed v)
  refine h.next hinv hv rfl rfl (fun w hw => of_ne_none_update hw)
    (fun c hc => h.called hc) hfixed
    fun hrole => ?_
  have hrefreshed := (stable_fixed members v).refresh (h.fixed v)
  rcases (s.nodes v).startElection_cases with
    ⟨heq, -⟩ | ⟨-, heq⟩ | ⟨-, hmajority, heq, -⟩
  · rw [heq] at hrole ⊢
    exact .inl (leads_of_quiet (.refreshMembership _) hrole)
  · rw [heq] at hrole
    cases hrole
  · rw [heq]
    refine .inr ⟨_, hrefreshed, ?_⟩
    rw [(becomeLeader_keeps _).2]
    exact hmajority

lemma callVote (h : FixedInv members s) (hinv : Inv s') {v peer : NodeId}
    (hs : s.step? cb (.callVote v peer) = some s') :
    FixedInv members s' := by
  simp only [RaftGroup.step?] at hs
  cases hk : s.campaigns v with
  | none => simp [hk] at hs
  | some k =>
    rw [hk] at hs
    dsimp only at hs
    split_ifs at hs with hnew
    cases hs
    have hv : v ∈ members := h.campaigner (by rw [hk]; simp)
    refine h.same hinv rfl rfl (fun w hw => ?_) fun c hc => ?_
    · rcases of_ne_none_update hw with hw | rfl
      · exact hw
      · rw [hk]
        simp
    · rcases List.mem_append.mp hc with hc | hc
      · exact h.called hc
      · rw [List.mem_singleton.mp hc]
        refine ⟨hv, ?_⟩
        have := hnew.1
        rw [(h.fixed v).peers] at this
        exact Finset.mem_of_mem_erase this

lemma requestVote (h : FixedInv members s) (hinv : Inv s') {call now : ℕ}
    (hs : s.step? cb (.requestVote call now) = some s') :
    FixedInv members s' := by
  simp only [RaftGroup.step?] at hs
  cases hc : s.voteCalls[call]? with
  | none => simp [hc] at hs
  | some c =>
    rw [hc] at hs
    cases hs
    have hcalled := h.called (List.mem_of_getElem? hc)
    have hfixed := (stable_fixed members c.target).handleRequestVote
      (h.fixed c.target) now c.request
    refine h.next hinv hcalled.2 rfl rfl (fun w hw => .inl hw) (fun c hc => h.called hc) hfixed
      fun hrole => .inl ?_
    have hquiet := quiet_atTerm (s.nodes c.target) c.request.term
    rcases handleRequestVote_cases now (s.nodes c.target) c.request with
      ⟨-, heq | ⟨-, heq⟩⟩ | ⟨-, -, -, heq⟩ <;> rw [heq] at hrole ⊢
    · exact ⟨hrole, rfl⟩
    · exact leads_of_quiet hquiet hrole
    · have hled := leads_of_quiet hquiet hrole
      exact ⟨hled.1, hled.2⟩

lemma voteReply (h : FixedInv members s) (hinv : Inv s') {call answer : ℕ}
    (hs : s.step? cb (.voteReply call answer) = some s') :
    FixedInv members s' := by
  simp only [RaftGroup.step?] at hs
  split at hs
  · rename_i c call' resp hc hanswer
    split_ifs at hs with hwaits
    cases hs
    have hcalled := h.called (List.mem_of_getElem? hc)
    have hfixed := (stable_fixed members c.caller).voteReply
      (h.fixed c.caller) c.request.term resp
    refine h.next hinv hcalled.1 rfl rfl (fun w hw => .inl hw) (h.called_stopCall call) hfixed
      fun hrole => ?_
    have hcounting : Fixed members c.caller (s.nodes c.caller).counting :=
      (stable_fixed members c.caller).congr (h.fixed c.caller) rfl rfl rfl rfl
    rcases (s.nodes c.caller).voteReply_cases c.request.term resp with
      heq | ⟨-, heq⟩ | ⟨-, hcandidate, -, ⟨-, heq⟩ | ⟨hmajority, heq⟩⟩ <;>
        rw [heq] at hrole ⊢
    · exact .inl ⟨hrole, rfl⟩
    · cases hrole
    · rw [counting_role, hcandidate] at hrole
      cases hrole
    · refine .inr ⟨_, hcounting, ?_⟩
      rw [(becomeLeader_keeps _).2]
      exact hmajority
  · cases hs

lemma handle (h : FixedInv members s) (hinv : Inv s') {v : NodeId} {handler : Handler}
    (hok : v ∈ members ∧ handler.Keeps members)
    (hs : s.step? cb (.handle v handler) = some s') :
    FixedInv members s' := by
  cases hs
  obtain ⟨hv, hkeeps⟩ := hok
  refine h.next hinv hv rfl rfl (fun w hw => .inl hw) (fun c hc => h.called hc) ?_
    fun hrole => .inl (leads_of_quiet (.run cb _ handler) hrole)
  have hf := h.fixed v
  refine (stable_fixed members v).run hf handler ?_ ?_ ?_
  · rintro now req log rfl hsome
    exact ⟨hf.id, hf.peers, hf.base, hf.plain.appendEntriesFrom hkeeps hsome⟩
  · rintro req rfl
    refine ⟨hf.id, hf.peers, ?_, ?_⟩
    · show (req.membership.erase (s.nodes v).id).keys = _
      rw [OrdMap.keys_erase, hf.id, hkeeps]
    · intro e he
      rw [adopted_log] at he
      split at he
      · exact hf.plain.compactTo _ _ e he
      · exact hf.plain.compactTo _ _ e he
  · rintro command rfl -
    exact ⟨hf.id, hf.peers, hf.base, hf.plain.append _ hkeeps⟩

lemma crash (h : FixedInv members s) (hinv : Inv s') {v : NodeId} {disk : Disk} {machine : σ}
    (hok : v ∈ members ∧ disk.membership.basePeers.keys = members.erase v ∧ Plain disk.log)
    (hs : s.step? cb (.crash v disk machine) = some s') : FixedInv members s' := by
  simp only [RaftGroup.step?] at hs
  split_ifs at hs with hstate
  cases hs
  obtain ⟨hv, hbase, hplain⟩ := hok
  refine h.next (n := construct v disk.state disk.log disk.membership machine) hinv hv rfl rfl
    (fun w hw => of_ne_none_update hw) (fun c hc => ?_) ⟨rfl, hbase, hbase, hplain⟩
    fun hrole => by cases hrole
  obtain ⟨c₀, hc₀, heq⟩ := List.mem_map.mp hc
  have := h.called hc₀
  split at heq <;> cases heq <;> exact this

/-- **Each event keeps the invariant.** -/
theorem step (h : FixedInv members s) {e : Event σ} (hok : FixedMembers members e)
    (hs : s.step? cb e = some s') : FixedInv members s' := by
  have hinv : Inv s' := by
    refine h.inv.step ?_ hs
    cases e with
    | crash v disk machine =>
      show v ∉ disk.membership.basePeers.keys
      rw [hok.2.1]
      exact Finset.notMem_erase v members
    | _ => trivial
  cases e with
  | startElection v => exact h.startElection hinv hok hs
  | callVote v peer => exact h.callVote hinv hs
  | requestVote call now => exact h.requestVote hinv hs
  | voteReply call answer => exact h.voteReply hinv hs
  | voteLost call =>
    cases hs
    exact h.same hinv rfl rfl (fun w hw => hw) (h.called_stopCall call)
  | handle v handler => exact h.handle hinv hok hs
  | crash v disk machine => exact h.crash hinv hok hs

end FixedInv

/-- The group on its first run, each node with its own address and its own peers. -/
def RaftGroup.boot (own : NodeId → PeerAddress) (peers : NodeId → OrdMap NodeId PeerAddress)
    (machine : NodeId → σ) : RaftGroup σ :=
  .init fun v => bootstrap v (own v) (peers v) false (machine v)

lemma fixedInv_boot {own : NodeId → PeerAddress} {peers : NodeId → OrdMap NodeId PeerAddress}
    {machine : NodeId → σ} (hpeers : ∀ v, (peers v).keys = members.erase v) :
    FixedInv members (RaftGroup.boot own peers machine) where
  inv := {
    apart := fun v => by
      have hv : v ∉ (peers v).keys := by
        rw [hpeers]
        exact Finset.notMem_erase v members
      exact ⟨rfl, hv, hv⟩
    later := fun h => by cases h
    once := fun ⟨_, h⟩ => by cases h
    campaign := fun h => by cases h
    called := fun h => by cases h
    call := fun h => by cases h
    distinct := List.nodup_nil
    answer := fun h => by cases h
    counted := fun h => absurd rfl h }
  fixed := fun v => ⟨rfl, hpeers v, hpeers v, fun e he => by cases he⟩
  campaigner := fun h => absurd rfl h
  called := fun h => by cases h
  competitor := fun h => absurd rfl h
  leader := fun h => by cases h
  led := fun h => by cases h

/-- **Election safety**: in every run of a group whose members do not change, whatever its
leaders send and wherever its nodes crash, one node at most enters the role of the leader in
each term. -/
theorem one_leader {cb : Callbacks σ} {own : NodeId → PeerAddress}
    {peers : NodeId → OrdMap NodeId PeerAddress} {machine : NodeId → σ}
    (hpeers : ∀ v, (peers v).keys = members.erase v) {s : RaftGroup σ}
    (hs : Reach (StepOf? (RaftGroup.step? cb)) (fun _ e => FixedMembers members e)
      (RaftGroup.boot own peers machine) s)
    {v w : NodeId} {st st' : PersistentState} (hv : (v, st, .kLeader) ∈ s.past)
    (hw : (w, st', .kLeader) ∈ s.past) (hterm : st.currentTerm = st'.currentTerm) : v = w := by
  have h : FixedInv members s :=
    hs.invariant (I := FixedInv members) (fixedInv_boot hpeers) fun _ _ _ h hok hstep =>
      h.step hok hstep
  obtain ⟨q, hq, hvoted⟩ := h.led hv
  obtain ⟨q', hq', hvoted'⟩ := h.led hw
  have hclose : Close members members := .inl rfl
  obtain ⟨x, hx, hx'⟩ := hclose.overlap hq hq'
  exact h.inv.once (hvoted x hx) (hterm ▸ hvoted' x hx')

/-- Three servers, but for one of them. -/
def others (v : NodeId) : OrdMap NodeId PeerAddress :=
  OrdMap.insertAll .empty (([1, 2, 3].filter (· ≠ v)).map (·, ⟨[], 0⟩))

lemma keys_others (v : NodeId) : (others v).keys = ({1, 2, 3} : Finset NodeId).erase v := by
  rw [others, OrdMap.keys_insertAll]
  ext w
  simp [OrdMap.mem_keys]
  tauto

def trio : RaftGroup Unit := .boot (fun _ => ⟨[], 0⟩) others fun _ => ()

def noCallbacks : Callbacks Unit := ⟨fun s _ _ => (s, .ok []), fun _ => [], fun s _ => s⟩

/-- Server 1 wins term 1 with the vote of server 2, which crashes before its answer is read. -/
def voteSurvives : List (Event Unit) :=
  [.startElection 1, .callVote 1 2, .requestVote 0 1000,
    .crash 2 ⟨⟨1, some 1⟩, .empty, ⟨others 2, true, ⟨[], 0⟩⟩⟩ (), .voteReply 0 0]

theorem one_leader_trio : ∃ s, runOf? (RaftGroup.step? noCallbacks) trio voteSurvives = some s ∧
    (1, ⟨1, some 1⟩, .kLeader) ∈ s.past ∧
    ∀ w st, (w, st, .kLeader) ∈ s.past → st.currentTerm = 1 → w = 1 := by
  have hok : ∀ e ∈ voteSurvives, FixedMembers ({1, 2, 3} : Finset NodeId) e := by
    simp [voteSurvives, FixedMembers, keys_others, Plain, RaftLog.empty]
  have hled : (1, ⟨1, some 1⟩, .kLeader) ∈
      ((runOf? (RaftGroup.step? noCallbacks) trio voteSurvives).map RaftGroup.past).getD [] := by
    decide
  cases hs : runOf? (RaftGroup.step? noCallbacks) trio voteSurvives with
  | none => simp [hs] at hled
  | some s =>
    rw [hs] at hled
    exact ⟨s, rfl, hled, fun w st hw hterm =>
      one_leader keys_others (reach_runOf?_of hok hs) hw hled hterm⟩

end DistDB.Elections
