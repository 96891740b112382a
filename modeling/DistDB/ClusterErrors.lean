import DistDB.ApplyErrors
import DistDB.ClusterChanges

/-!
The errors that the nodes of a cluster note of the entries they apply: each is on the record of
its node (`OnRecord`), and what is recorded at an index is about the command that is committed
there (`Told`).
-/

namespace DistDB.ClusterModel

open NodeModel NodeModel.Node Elections Agreement ApplyErrors
open Consensus (Goes Committed)

variable {σ : Type} {base : Finset NodeId} {cb : Callbacks σ} {s s' : Cluster σ} {v : NodeId}

inductive Acts (cb : Callbacks σ) (n : Node σ) : Node σ → Prop
  | handler (h : Handler) : Acts cb n (h.run cb n)
  | startElection : Acts cb n n.startElection.1
  | requestVote (now : ℕ) (req : RequestVoteRequest) : Acts cb n (n.handleRequestVote now req).1
  | voteReply (term : ℕ) (resp : RequestVoteResponse) : Acts cb n (n.voteReply term resp).1
  | compact : Acts cb n n.compact.1

/-- One function of one node at most, or it starts again. -/
def Acted (cb : Callbacks σ) (s : Cluster σ) (e : Event σ) (v : NodeId) (n : Node σ) : Prop :=
  n = s.node v ∨ Acts cb (s.node v) n ∨ ∃ machine, e = .restart v machine ∧
    n = construct v (s.node v).state (s.node v).log (s.node v).membershipState machine

lemma acted_setNode {e : Event σ} {w : NodeId} {n : Node σ} (h : Acts cb (s.node v) n) :
    Acted cb s e w ((s.group.setNode v n).nodes w) := by
  by_cases hw : w = v
  · subst hw
    rw [show (s.group.setNode w n).nodes w = n from Function.update_self ..]
    exact .inr (.inl h)
  · exact .inl (Function.update_of_ne hw ..)

lemma acted_election {e : Elections.Event σ} {group : RaftGroup σ} (hof : OfElection e = true)
    (hgroup : s.group.step? cb e = some group) (w : NodeId) :
    Acted cb s (.election e) w (group.nodes w) := by
  cases e with
  | startElection v =>
    cases hgroup
    exact acted_setNode .startElection
  | callVote v peer =>
    simp only [RaftGroup.step?] at hgroup
    split at hgroup
    · cases hgroup
    · split_ifs at hgroup
      cases hgroup
      exact .inl rfl
  | requestVote call now =>
    simp only [RaftGroup.step?] at hgroup
    split at hgroup
    · cases hgroup
    · cases hgroup
      exact acted_setNode (.requestVote now _)
  | voteReply call answer =>
    simp only [RaftGroup.step?] at hgroup
    split at hgroup
    · split_ifs at hgroup
      cases hgroup
      exact acted_setNode (.voteReply _ _)
    · cases hgroup
  | voteLost call =>
    cases hgroup
    exact .inl rfl
  | handle v handler => cases hof
  | crash v disk machine => cases hof

theorem acted_step {e : Event σ} (hs : s.step? cb e = some s') (w : NodeId) :
    Acted cb s e w (s'.node w) := by
  have hgroup := group_step hs
  show Acted cb s e w (s'.group.nodes w)
  generalize s'.group = group at hgroup ⊢
  cases hgroup with
  | same => exact .inl rfl
  | election hof hgroup => exact acted_election hof hgroup w
  | handler v handler => exact acted_setNode (.handler handler)
  | compact => exact acted_setNode .compact
  | @restart v machine _ hgroup =>
    simp only [RaftGroup.step?] at hgroup
    split_ifs at hgroup
    cases hgroup
    by_cases hw : w = v
    · subst hw
      exact .inr (.inr ⟨machine, rfl, Function.update_self ..⟩)
    · exact .inl (Function.update_of_ne hw ..)

/-! ### The record of a node -/

/-- The errors that the node has noted are on its record. -/
def OnRecord (n : Node (σ × Record)) : Prop :=
  ∀ i error, n.applyErrors.find i = some error →
    ∃ command, (i, command, error) ∈ n.machine.2

/-- The record goes on, and what is noted is on it. -/
structure Recalls (n n' : Node (σ × Record)) : Prop where
  record : ∀ r ∈ n.machine.2, r ∈ n'.machine.2
  noted : OnRecord n → OnRecord n'

namespace Recalls

variable {n n' : Node (σ × Record)}

lemma refl (n : Node (σ × Record)) : Recalls n n := ⟨fun _ => id, id⟩

lemma trans {m : Node (σ × Record)} (h : Recalls n m) (h' : Recalls m n') : Recalls n n' :=
  ⟨fun r hr => h'.record r (h.record r hr), h'.noted ∘ h.noted⟩

lemma of_eq (hmachine : n'.machine = n.machine) (herrors : n'.applyErrors = n.applyErrors) :
    Recalls n n' := by
  refine ⟨fun r hr => hmachine ▸ hr, fun h i error hi => ?_⟩
  rw [hmachine]
  exact h i error (herrors ▸ hi)

lemma quiet (h : NodeHandlers.Quiet n n') : Recalls n n' := of_eq h.machine h.applyErrors

lemma applyNext (n : Node (σ × Record)) : Recalls n (n.applyNext (recording cb)).1 := by
  obtain ⟨machine, errors, log, heq, -, ⟨hrecord, herrors⟩ | ⟨entry, -, hrecorded⟩⟩ :=
    @applyNext_recorded σ cb n
  · rw [heq]
    exact ⟨fun r hr => hrecord ▸ hr, fun h i error hi => hrecord ▸ h i error
      (herrors ▸ hi)⟩
  rw [heq]
  rcases hrecorded with ⟨hrecord, herrors⟩ | ⟨error, hrecord, herrors⟩
  · exact ⟨fun r hr => hrecord ▸ hr, fun h i error hi => hrecord ▸ h i error
      (herrors ▸ hi)⟩
  refine ⟨fun r hr => hrecord ▸ List.mem_append_left _ hr, fun h i error' hi => ?_⟩
  dsimp only at hi ⊢
  rw [herrors] at hi
  rw [hrecord]
  have hold : n.applyErrors.find i = some error' →
      ∃ command, (i, command, error') ∈ n.machine.2 ++ [(entry.index, entry.command, error)] :=
    fun hfind => (h i error' hfind).imp fun _ hmem => List.mem_append_left _ hmem
  split_ifs at hi with hempty
  · exact hold hi
  · rw [OrdMap.find_insert] at hi
    split_ifs at hi with hindex
    · obtain rfl := Option.some.inj hi
      exact ⟨entry.command, by simp [hindex]⟩
    · exact hold hi

lemma compact (n : Node (σ × Record)) : Recalls n n.compact.1 := by
  unfold Node.compact
  dsimp only
  split
  · exact refl n
  · refine ⟨fun _ => id, fun h i error hi => ?_⟩
    dsimp only at hi
    rw [OrdMap.find_filterMap] at hi
    obtain ⟨old, hfind, hsome⟩ := Option.bind_eq_some_iff.mp hi
    split_ifs at hsome
    exact h i error (hfind.trans hsome)

lemma settles {commits : ℕ → ℕ → Prop} (h : Settles (recording cb) commits n n') :
    Recalls n n' := by
  refine Settles.keeps (P := Recalls n) h (refl n) fun a b ha hmove => ha.trans ?_
  cases hmove with
  | refresh => exact quiet (.refresh a)
  | commit i _ =>
    have hcommit : Recalls a (a.withCommitIndex i) := of_eq rfl rfl
    exact applyCommitted_induct (P := Recalls a) (Q := Recalls a) hcommit
      (fun m hm _ => hm.trans (applyNext m)) (fun m hm => hm) fun m hm => hm.trans (compact m)
  | note | stepDown => exact of_eq rfl rfl

lemma run (h : Handler) (n : Node (σ × Record)) : Recalls n (h.run (recording cb) n) := by
  cases h with
  | appendEntries now req =>
    have hheard := quiet (.heardFrom n now req.term req.leaderId)
    rcases @handleAppendEntries_cases _ (recording cb) now n req with
      ⟨-, heq⟩ | ⟨-, -, heq⟩ | ⟨-, log, -, hs, -⟩
    · rw [Handler.run, heq]
      exact refl n
    · rw [Handler.run, heq]
      exact hheard
    · have htaken : Recalls n ((n.heardFrom now req.term req.leaderId).withLog log) :=
        hheard.trans (of_eq rfl rfl)
      exact htaken.trans (settles hs)
  | replicateTo peer => exact settles (@replicateTo_settles _ (recording cb) n peer)
  | replicationLost peer => exact of_eq rfl rfl
  | appendReply peer term prevLogIndex sentCount resp =>
    rcases @appendReply_cases _ (recording cb) n peer term prevLogIndex sentCount resp with
      hs | ⟨-, heq⟩ | ⟨-, -, -, -, matched, -, hs⟩
    · exact settles hs
    · rw [Handler.run, heq]
      exact of_eq rfl rfl
    · have hacked : Recalls n ((n.replicationLost peer).acknowledged peer matched) :=
        of_eq rfl rfl
      exact hacked.trans (settles hs)
  | sendInstallSnapshot peer term =>
    exact settles (@sendInstallSnapshot_settles _ (recording cb) n peer term)
  | snapshotReply peer term snapshotIndex resp =>
    exact quiet (.snapshotReply n peer term snapshotIndex resp)
  | installCheck now req => exact quiet (.installCheck n now req)
  | installRestore req => exact ⟨fun _ => id, id⟩
  | installAdopt req =>
    rcases n.installAdopt_cases req with ⟨-, heq⟩ | ⟨-, heq⟩ <;> rw [Handler.run, heq]
    · exact refl n
    · have hadopted : Recalls n (n.adopted req) := of_eq rfl rfl
      exact hadopted.trans (quiet (.refresh _))
  | propose command =>
    rcases @propose_cases _ (recording cb) n command with
      ⟨-, heq, -⟩ | ⟨-, -, m, rfl, hs, -⟩
    · rw [Handler.run, heq]
      exact refl n
    · have hlogged : Recalls n (n.withLog (n.log.append n.state.currentTerm command).1) :=
        of_eq rfl rfl
      exact (hlogged.trans (quiet (.refresh _))).trans (settles hs)

lemma acts (h : Acts (recording cb) n n') : Recalls n n' := by
  cases h with
  | handler h => exact run h n
  | startElection => exact quiet (.startElection n)
  | requestVote now req => exact quiet (.handleRequestVote n now req)
  | voteReply term resp =>
    rcases n.voteReply_cases term resp with
      heq | ⟨-, heq⟩ | ⟨-, -, -, ⟨-, heq⟩ | ⟨-, heq⟩⟩ <;>
      rw [heq]
    · exact refl n
    · exact of_eq rfl rfl
    · exact of_eq rfl rfl
    · rcases n.counting.becomeLeader_cases with hlead | ⟨-, hlead⟩ <;> rw [hlead]
      · exact (of_eq rfl rfl : Recalls n n.counting).trans (quiet (.refresh _))
      · exact ((of_eq rfl rfl : Recalls n n.counting).trans (quiet (.refresh _))).trans
          (of_eq rfl rfl)
  | compact => exact compact n

/-- No event of a cluster takes anything off the records. -/
theorem step {s s' : Cluster (σ × Record)} {e : Event (σ × Record)}
    (hkeeps : KeepsMachine (fun m m' => m'.2 = m.2) s e)
    (hs : s.step? (recording cb) e = some s') (v : NodeId) : Recalls (s.node v) (s'.node v) := by
  rcases acted_step hs v with heq | hacts | ⟨machine, rfl, heq⟩
  · rw [heq]
    exact refl _
  · exact acts hacts
  · rw [heq]
    have hmachine : machine.2 = (s.node v).machine.2 := hkeeps
    exact ⟨fun r hr => hmachine ▸ hr, fun _ i error hi => by cases hi⟩

end Recalls

/-- What is on the record is about the committed commands. -/
def Told (a : History) (m : σ × Record) : Prop := Handed a (m.1, m.2.map fun r => (r.1, r.2.1))

lemma told_iff {a : History} {m : σ × Record} : Told a m ↔
    ∀ i c error, (i, c, error) ∈ m.2 → 0 < i ∧ ∃ u l e, Committed a u l i ∧
      l[i - 1]? = some e ∧ e.command = c := by
  unfold Told Handed
  simp only [List.mem_map, Prod.mk.injEq]
  constructor
  · exact fun h i c error hmem => h i c ⟨_, hmem, rfl, rfl⟩
  · rintro h i c ⟨⟨j, d, error⟩, hmem, rfl, rfl⟩
    exact h j d error hmem

lemma watches_told (base : Finset NodeId) (hcb : cb.Total) : Watches base (recording cb) Told where
  goes := fun hinv hgoes h => (watches_handed base cb).goes hinv hgoes h
  execute := fun {a u l i j e m} _ hcommitted hlt hget hindex h => by
    unfold execute
    split
    · obtain ⟨error, hok⟩ := hcb m.1 e.index e.command
      rw [told_iff] at h ⊢
      intro k c error' hmem
      unfold recording at hmem
      dsimp only at hmem
      rw [hok] at hmem
      rcases List.mem_append.mp hmem with hold | hnew
      · exact h k c error' hold
      · simp only [List.mem_singleton, Prod.mk.injEq] at hnew
        obtain ⟨rfl, rfl, rfl⟩ := hnew
        rw [hindex]
        exact ⟨Nat.succ_pos j, u, l, e, hcommitted.le hlt, hget, rfl⟩
    · exact h
  restore := fun _ h => h

end DistDB.ClusterModel
