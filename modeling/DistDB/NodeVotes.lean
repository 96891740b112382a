import DistDB.NodeSteps

/-!
Vote requests from servers that are not members, which go on asking with ever higher terms.

A member that has heard from the leader within the least election timeout ignores them. The
leader itself is not protected by that, as nobody is the leader for it: a request with a
higher term makes it step down.
-/

namespace DistDB.NodeVotes

open NodeModel NodeModel.Node

variable {σ : Type}

/-- The node has heard from a leader within the least election timeout. -/
def InContact (now : ℕ) (n : Node σ) : Prop :=
  n.lastLeaderContact.any (fun t => now - t < kElectionTimeoutMinMs) = true

instance (now : ℕ) (n : Node σ) : Decidable (InContact now n) :=
  inferInstanceAs (Decidable (_ = _))

section

variable {now : ℕ} {n : Node σ} {req : RequestVoteRequest}

/-- A node that is no follower has voted for itself. -/
def Standing (n : Node σ) : Prop := n.role ≠ .kFollower → n.state.votedFor = some n.id

lemma handleRequestVote_of_contact (h : InContact now n) : (n.handleRequestVote now req).1 = n := by
  unfold InContact at h
  unfold handleRequestVote
  rw [if_pos h]

lemma handleRequestVote_of_lt (h : req.term < n.state.currentTerm) :
    (n.handleRequestVote now req).1 = n := by
  unfold handleRequestVote
  split_ifs <;> rfl

lemma handleRequestVote_of_voted (hterm : req.term = n.state.currentTerm) {c : NodeId}
    (hvoted : n.state.votedFor = some c) (hc : c ≠ req.candidateId) :
    (n.handleRequestVote now req).1 = n := by
  by_cases hcontact : InContact now n
  · exact handleRequestVote_of_contact hcontact
  · have helse : (n.state.votedFor.any fun x => decide (x ≠ req.candidateId)) = true := by
      rw [hvoted]
      simpa using hc
    unfold InContact at hcontact
    unfold handleRequestVote
    rw [if_neg hcontact, if_neg (by omega)]
    dsimp only
    rw [if_neg (by omega : ¬ req.term > n.state.currentTerm), if_neg fun h => h.1 helse]

lemma handleRequestVote_of_gt (hcontact : ¬ InContact now n) (h : n.state.currentTerm < req.term) :
    (n.handleRequestVote now req).1.state.currentTerm = req.term ∧
      (n.handleRequestVote now req).1.role = .kFollower := by
  unfold InContact at hcontact
  have hstate : (n.becomeFollower req.term).state = ⟨req.term, none⟩ := if_pos h
  unfold handleRequestVote
  rw [if_neg hcontact, if_neg (by omega)]
  dsimp only
  rw [if_pos h]
  split_ifs
  · exact ⟨congrArg PersistentState.currentTerm hstate, rfl⟩
  · exact ⟨congrArg PersistentState.currentTerm hstate, rfl⟩

end

/-! ### A healthy cluster -/

/-- A vote request that reaches a member at some time. -/
structure Delivery where
  now : ℕ
  target : NodeId
  request : RequestVoteRequest

def deliver (nodes : NodeId → Node σ) (d : Delivery) : NodeId → Node σ :=
  Function.update nodes d.target ((nodes d.target).handleRequestVote d.now d.request).1

def deliverAll (nodes : NodeId → Node σ) (ds : List Delivery) : NodeId → Node σ :=
  ds.foldl deliver nodes

/-- One member leads in the highest term, and the others have heard from it lately whenever
one of the requests reaches them; the requests come from outside. -/
structure Healthy (members : Finset NodeId) (leader : NodeId) (nodes : NodeId → Node σ)
    (ds : List Delivery) : Prop where
  leader_mem : leader ∈ members
  leads : (nodes leader).role = .kLeader
  id_leader : (nodes leader).id = leader
  standing : Standing (nodes leader)
  highest : ∀ m ∈ members, (nodes m).state.currentTerm ≤ (nodes leader).state.currentTerm
  contact : ∀ d ∈ ds, d.target ≠ leader → InContact d.now (nodes d.target)
  target_mem : ∀ d ∈ ds, d.target ∈ members
  outside : ∀ d ∈ ds, d.request.candidateId ∉ members

/-- At no time on the way has a member another term, vote or role. -/
def Undisturbed (members : Finset NodeId) (nodes : NodeId → Node σ)
    (ds : List Delivery) : Prop :=
  ∀ before, before <+: ds → ∀ m ∈ members,
    (deliverAll nodes before m).state = (nodes m).state ∧
      (deliverAll nodes before m).role = (nodes m).role

/-- The leader is in contact with a leader before it, or the request is not of a higher
term. -/
def Harmless (leader : NodeId) (nodes : NodeId → Node σ) (d : Delivery) : Prop :=
  d.target = leader → InContact d.now (nodes leader) ∨
    d.request.term ≤ (nodes leader).state.currentTerm

variable {members : Finset NodeId} {leader : NodeId} {nodes : NodeId → Node σ}
  {ds : List Delivery} {d : Delivery}

lemma deliver_eq (h : ((nodes d.target).handleRequestVote d.now d.request).1 = nodes d.target) :
    deliver nodes d = nodes := by
  unfold deliver
  rw [h, Function.update_eq_self]

lemma deliver_harmless (h : Healthy members leader nodes ds) (hd : d ∈ ds)
    (hharmless : Harmless leader nodes d) : deliver nodes d = nodes := by
  refine deliver_eq ?_
  by_cases htarget : d.target = leader
  · rw [htarget]
    rcases hharmless htarget with hcontact | hterm
    · exact handleRequestVote_of_contact hcontact
    · rcases Nat.lt_or_eq_of_le hterm with hlt | heq
      · exact handleRequestVote_of_lt hlt
      · have hvoted := h.standing (by rw [h.leads]; nofun)
        rw [h.id_leader] at hvoted
        refine handleRequestVote_of_voted heq hvoted ?_
        rintro rfl
        exact h.outside d hd h.leader_mem
  · exact handleRequestVote_of_contact (h.contact d hd htarget)

lemma deliverAll_harmless (h : Healthy members leader nodes ds)
    (hharmless : ∀ d ∈ ds, Harmless leader nodes d) {before : List Delivery}
    (hbefore : ∀ d ∈ before, d ∈ ds) : deliverAll nodes before = nodes := by
  induction before with
  | nil => rfl
  | cons d before ih =>
    have hd : d ∈ ds := hbefore d (by simp)
    rw [deliverAll, List.foldl_cons, deliver_harmless h hd (hharmless d hd)]
    exact ih fun d' hd' => hbefore d' (by simp [hd'])

/-- **A healthy leader stays** exactly when no request that reaches the leader itself has a
higher term, unless the leader too has just heard from a leader before it. -/
theorem undisturbed_iff (h : Healthy members leader nodes ds) :
    Undisturbed members nodes ds ↔ ∀ d ∈ ds, Harmless leader nodes d := by
  constructor
  · intro hundisturbed
    by_contra hnot
    -- the first request that is not harmless finds the leader as it was, and deposes it
    obtain ⟨before, d, after, hds, hharmless, hfirst⟩ :
        ∃ before d after, ds = before ++ d :: after ∧
          (∀ d ∈ before, Harmless leader nodes d) ∧ ¬ Harmless leader nodes d := by
      clear h hundisturbed
      induction ds with
      | nil => exact absurd (fun d hd => absurd hd (List.not_mem_nil)) hnot
      | cons d ds ih =>
        by_cases hd : Harmless leader nodes d
        · obtain ⟨before, d', after, rfl, hall, hfirst⟩ := ih fun hall =>
            hnot (List.forall_mem_cons.mpr ⟨hd, hall⟩)
          exact ⟨d :: before, d', after, rfl, List.forall_mem_cons.mpr ⟨hd, hall⟩, hfirst⟩
        · exact ⟨[], d, ds, rfl, by simp, hd⟩
    have hbefore : deliverAll nodes before = nodes := by
      have hmem : ∀ d ∈ before, d ∈ ds := by
        intro d hd
        rw [hds]
        exact List.mem_append_left _ hd
      have hhealthy : Healthy members leader nodes before :=
        { h with
          contact := fun d hd => h.contact d (hmem d hd)
          target_mem := fun d hd => h.target_mem d (hmem d hd)
          outside := fun d hd => h.outside d (hmem d hd) }
      exact deliverAll_harmless hhealthy hharmless fun _ => id
    have hafter := hundisturbed (before ++ [d]) ⟨after, by rw [hds]; simp⟩ leader h.leader_mem
    have hlast : deliverAll nodes (before ++ [d]) = deliver nodes d := by
      rw [deliverAll, List.foldl_append]
      show deliver (deliverAll nodes before) d = _
      rw [hbefore]
    rw [hlast] at hafter
    unfold Harmless at hfirst
    push Not at hfirst
    obtain ⟨htarget, hcontact, hterm⟩ := hfirst
    have hdeposed := handleRequestVote_of_gt hcontact hterm
    simp only [deliver, htarget, Function.update_self] at hafter
    rw [hafter.1] at hdeposed
    omega
  · intro hharmless before hbefore m _
    rw [deliverAll_harmless h hharmless fun d hd => hbefore.subset hd]
    exact ⟨rfl, rfl⟩

def address : PeerAddress := ⟨[104], 1⟩

/-- A node of the cluster of the servers one to three, on its first run. -/
def fresh (id : NodeId) : Node Unit :=
  bootstrap id address
    (([1, 2, 3].filter (· ≠ id)).foldl (fun m p => m.insert p address) .empty) false ()

def silent : Callbacks Unit := ⟨fun s _ _ => (s, .ok []), fun _ => [], fun s _ => s⟩

/-- Server one has been elected in term one, and the others have heard from it at 1000. -/
def trio (id : NodeId) : Node Unit :=
  if id = 1 then ((fresh 1).startElection.1.voteReply 1 ⟨1, true⟩).1
  else (((fresh id).handleRequestVote 600 ⟨1, 1, 0, 0⟩).1.handleAppendEntries silent 1000
    ⟨1, 1, 0, 0, [], 0⟩).1

/-- What server four asks at 1100, in this term. -/
def ask (target : NodeId) (term : ℕ) : Delivery := ⟨1100, target, ⟨term, 4, 0, 0⟩⟩

lemma healthy_trio {ds : List Delivery}
    (hds : ∀ d ∈ ds, d = ask 1 1 ∨ d = ask 1 2 ∨ d = ask 2 7 ∨ d = ask 3 7) :
    Healthy {1, 2, 3} 1 trio ds where
  leader_mem := by decide
  leads := by decide
  id_leader := rfl
  standing := fun _ => by decide
  highest := by decide
  contact := fun d hd hne => by
    rcases hds d hd with rfl | rfl | rfl | rfl
    · exact absurd rfl hne
    · exact absurd rfl hne
    · decide
    · decide
  target_mem := fun d hd => by rcases hds d hd with rfl | rfl | rfl | rfl <;> decide
  outside := fun d hd => by rcases hds d hd with rfl | rfl | rfl | rfl <;> decide

/-- The two followers ignore the removed server, and the leader its old term. -/
theorem undisturbed_trio : Undisturbed {1, 2, 3} trio [ask 2 7, ask 1 1, ask 3 7] := by
  refine (undisturbed_iff (healthy_trio (by simp))).mpr fun d hd htarget => ?_
  rcases List.mem_cons.mp hd with rfl | hd
  · cases htarget
  · rcases List.mem_cons.mp hd with rfl | hd
    · exact .inr (by decide)
    · obtain rfl := List.mem_singleton.mp hd
      cases htarget

/-- **The leader is not protected**: one request with a higher term deposes it. -/
theorem leader_deposed : ¬ ∀ ds : List Delivery, Healthy {1, 2, 3} 1 trio ds →
    Undisturbed {1, 2, 3} trio ds := by
  intro hall
  have hrole := (hall [ask 1 2] (healthy_trio (by simp)) [ask 1 2] (List.prefix_refl _) 1
    (by decide)).2
  exact absurd hrole (by decide)

end DistDB.NodeVotes
