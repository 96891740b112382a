import DistDB.NodeHandlers
import DistDB.Overwrites

/-!
Compaction does not change the members that a Raft node derives.

`RefreshMembership` and the compaction in `ApplyCommitted` fold conf changes with loops of
their own. Both overwrite what a change names, and they differ for the own removal that a
leader has not committed yet; a compaction only takes committed changes. So a node derives the
same members before and after it (`derived_compact`). A crash between the two saves of a
compaction leaves changes in the log that the stored members contain already; as they
overwrite, they may be folded again (`derived_folded`).
-/

namespace DistDB.MembershipFold

open NodeModel NodeModel.Node NodeCrash NodeHandlers Checks
open NodeInstall (Sys begin)

variable {σ : Type} {cb : Callbacks σ} {commits : ℕ → ℕ → Prop} {n n' : Node σ}

/-! ### The conf changes of a log -/

lemma filterMapM_append {ε α β : Type} (f : α → Except ε (Option β)) (xs ys : List α) :
    (xs ++ ys).filterMapM f = do
      let as ← xs.filterMapM f
      let bs ← ys.filterMapM f
      return as ++ bs := by
  induction xs with
  | nil =>
    show ys.filterMapM f = (ys.filterMapM f >>= fun bs => .ok bs)
    cases ys.filterMapM f <;> rfl
  | cons x xs ih =>
    rw [List.cons_append, List.filterMapM_cons, List.filterMapM_cons, ih]
    cases f x with
    | error e => rfl
    | ok b =>
      cases b with
      | none => rfl
      | some b =>
        cases xs.filterMapM f with
        | error e => rfl
        | ok as =>
          cases ys.filterMapM f with
          | error e => rfl
          | ok bs => rfl

lemma confChanges_split (log : RaftLog) {lo mid hi : ℕ} (hlo : lo ≤ mid) (hhi : mid ≤ hi) :
    confChanges log lo hi = do
      let as ← confChanges log lo mid
      let bs ← confChanges log mid hi
      return as ++ bs := by
  have hrange : List.range' (lo + 1) (hi - lo) =
      List.range' (lo + 1) (mid - lo) ++ List.range' (mid + 1) (hi - mid) := by
    have happend := @List.range'_append (lo + 1) (mid - lo) (hi - mid) 1
    rw [show lo + 1 + 1 * (mid - lo) = mid + 1 by omega,
      show mid - lo + (hi - mid) = hi - lo by omega] at happend
    exact happend.symm
  unfold confChanges
  rw [hrange, filterMapM_append]

lemma confChanges_congr {log log' : RaftLog} {lo : ℕ}
    (h : ∀ i, lo < i → log'.get i = log.get i) (hi : ℕ) :
    confChanges log' lo hi = confChanges log lo hi := by
  unfold confChanges
  have hget : ∀ i ∈ List.range' (lo + 1) (hi - lo), log'.get i = log.get i := fun i hmem =>
    h i (List.mem_range'_1.mp hmem).1
  generalize List.range' (lo + 1) (hi - lo) = is at hget ⊢
  induction is with
  | nil => rfl
  | cons i is ih =>
    rw [List.filterMapM_cons, List.filterMapM_cons, hget i (by simp),
      ih fun j hj => hget j (by simp [hj])]

lemma confChanges_none {log : RaftLog} {lo hi : ℕ} (h : ∀ i, lo < i → log.get i = none) :
    confChanges log lo hi = .ok [] := by
  unfold confChanges
  rw [filterMapM_ok (g := fun _ => none) fun i hmem => by
    rw [h i (List.mem_range'_1.mp hmem).1]
    rfl]
  simp

lemma get_past {log : RaftLog} {i : ℕ} (h : log.lastIndex < i) : log.get i = none := by
  unfold RaftLog.get
  rw [if_pos (.inr h)]

lemma confChanges_past {log : RaftLog} {lo hi : ℕ} (hhi : log.lastIndex ≤ hi) :
    confChanges log lo log.lastIndex = confChanges log lo hi := by
  rcases Nat.lt_or_ge log.lastIndex lo with hlt | hge
  · rw [confChanges_none fun i hi => get_past (by omega),
      confChanges_none fun i hi => get_past (by omega)]
  · rw [confChanges_split log hge hhi, @confChanges_none log log.lastIndex hi fun i => get_past]
    cases hcs : confChanges log lo log.lastIndex with
    | error e => rfl
    | ok cs =>
      show Except.ok cs = Except.ok (cs ++ [])
      rw [List.append_nil]

lemma mem_confChanges {log : RaftLog} {lo hi : ℕ} {cs : List (ℕ × ConfChangeCommand)}
    (h : confChanges log lo hi = .ok cs) {c : ℕ × ConfChangeCommand} (hc : c ∈ cs) :
    lo < c.1 ∧ c.1 ≤ hi := by
  obtain ⟨i, hi, hfound⟩ := mem_filterMapM h c hc
  obtain ⟨hlo, hhi⟩ := List.mem_range'_1.mp hi
  have hindex : c.1 = i := by
    cases hget : log.get i with
    | none =>
      rw [hget] at hfound
      cases hfound
    | some entry =>
      rw [hget] at hfound
      cases hcc : tryDecodeConfChange entry.command with
      | error e =>
        simp only [hcc] at hfound
        cases hfound
      | ok cc =>
        simp only [hcc] at hfound
        cases cc with
        | none => cases hfound
        | some cc =>
          cases hfound
          rfl
  omega

lemma get_compactTo {log : RaftLog} {index i : ℕ} (hindex : log.snapshotIndex < index)
    (hi : index < i) : (log.compactTo index (log.termAt index)).get i = log.get i := by
  unfold RaftLog.compactTo
  rw [if_neg (by omega)]
  rcases Nat.lt_or_ge log.lastIndex index with hpast | hin
  · rw [if_neg (by omega), @get_past log i (by omega)]
    exact get_past hi
  rw [if_pos ⟨hin, rfl⟩]
  have hat : (log.entries.drop (index - log.snapshotIndex))[i - index - 1]? =
      log.entries[i - log.snapshotIndex - 1]? := by
    rw [List.getElem?_drop]
    congr 1
    omega
  unfold RaftLog.get RaftLog.entryAt
  dsimp only
  rw [hat]
  cases hdrop : log.entries.drop (index - log.snapshotIndex) with
  | nil =>
    -- nothing is left, and nothing was behind the boundary
    have hlen := List.drop_eq_nil_iff.mp hdrop
    rw [List.getElem?_eq_none_iff.mpr (by omega), ite_self, ite_self]
  | cons e es =>
    have hlast : RaftLog.lastIndex ⟨index, log.termAt index, e :: es, log.appliedIndex⟩ =
        log.lastIndex := by
      have hlt : ¬ log.entries.length ≤ index - log.snapshotIndex := fun hle => by
        rw [List.drop_eq_nil_of_le hle] at hdrop
        cases hdrop
      unfold RaftLog.lastIndex
      rw [← hdrop]
      dsimp only
      rw [List.getLast?_drop, if_neg hlt]
      cases hentries : log.entries.getLast? with
      | none =>
        rw [List.getLast?_eq_none_iff.mp hentries] at hlt
        exact absurd (Nat.zero_le _) hlt
      | some e => rfl
    rw [hlast]
    by_cases hout : log.lastIndex < i
    · rw [if_pos (.inr hout), if_pos (.inr hout)]
    · rw [if_neg (by omega), if_neg (by omega)]

/-- What the fold of `RefreshMembership` does to the members with one change. -/
def memberStep (id : NodeId) (role : Role) (commitIndex : ℕ)
    (m : OrdMap NodeId PeerAddress × Bool) (change : ℕ × ConfChangeCommand) :
    OrdMap NodeId PeerAddress × Bool :=
  if (change.2.type ≠ kAddServer ∧ change.2.serverId = id) ∧ role = .kLeader ∧
      commitIndex < change.1 then m
  else baseStep id m change.2

lemma effective_members (id : NodeId) (role : Role) (commitIndex : ℕ)
    (changes : List (ℕ × ConfChangeCommand)) (m : Effective) :
    ((changes.foldl (effectiveStep id role commitIndex) m).peers,
      (changes.foldl (effectiveStep id role commitIndex) m).selfMember) =
    changes.foldl (memberStep id role commitIndex) (m.peers, m.selfMember) := by
  induction changes generalizing m with
  | nil => rfl
  | cons change changes ih =>
    rw [List.foldl_cons, List.foldl_cons, ih]
    congr 1
    unfold effectiveStep memberStep baseStep
    dsimp only
    by_cases hadd : change.2.type = kAddServer
    · by_cases hself : change.2.serverId = id <;> simp [hadd, hself]
    · by_cases hself : change.2.serverId = id
      · by_cases hlead : role = .kLeader ∧ commitIndex < change.1 <;> simp [hadd, hself, hlead]
      · simp [hadd, hself]

lemma foldl_memberStep {id : NodeId} {role : Role} {commitIndex : ℕ}
    {changes : List (ℕ × ConfChangeCommand)}
    (h : role = .kLeader → ∀ c ∈ changes, c.1 ≤ commitIndex)
    (m : OrdMap NodeId PeerAddress × Bool) :
    changes.foldl (memberStep id role commitIndex) m =
      (changes.map Prod.snd).foldl (baseStep id) m := by
  induction changes generalizing m with
  | nil => rfl
  | cons change changes ih =>
    rw [List.foldl_cons, ih fun hrole c hc => h hrole c (by simp [hc]), List.map_cons,
      List.foldl_cons]
    congr 1
    unfold memberStep
    rw [if_neg]
    rintro ⟨-, hrole, hlt⟩
    have hle := h hrole change (by simp)
    omega

/-- What the members are at a place: a peer, or this node itself. -/
def place (p : Option NodeId) (m : OrdMap NodeId PeerAddress × Bool) :
    Option PeerAddress × Bool :=
  p.elim (none, m.2) fun p => (m.1.find p, false)

lemma place_ext {m m' : OrdMap NodeId PeerAddress × Bool} (h : ∀ p, place p m = place p m') :
    m = m' := by
  have hself : (place none m).2 = (place none m').2 := by rw [h none]
  have hpeers : m.1 = m'.1 := OrdMap.ext_find fun p => by
    show (place (some p) m).1 = (place (some p) m').1
    rw [h (some p)]
  exact Prod.ext hpeers hself

lemma overwrites_baseStep (id : NodeId) (cc : ConfChangeCommand) :
    Overwrites place fun m => baseStep id m cc := by
  unfold baseStep
  rintro (_ | p)
  · by_cases hadd : cc.type = kAddServer <;> by_cases hself : cc.serverId = id
    · exact .inr ⟨(none, true), fun m => by simp [hadd, hself, place]⟩
    · exact .inl fun m => by simp [hadd, hself, place]
    · exact .inr ⟨(none, false), fun m => by simp [hadd, hself, place]⟩
    · exact .inl fun m => by simp [hadd, hself, place]
  · by_cases hadd : cc.type = kAddServer <;> by_cases hself : cc.serverId = id
    · exact .inl fun m => by simp [hadd, hself, place]
    · by_cases hp : p = cc.serverId
      · exact .inr ⟨(some ⟨cc.host, cc.port⟩, false), fun m => by
          simp [hadd, hself, place, OrdMap.find_insert, hp]⟩
      · exact .inl fun m => by simp [hadd, hself, place, OrdMap.find_insert, hp]
    · exact .inl fun m => by simp [hadd, hself, place]
    · by_cases hp : p = cc.serverId
      · exact .inr ⟨(none, false),
          fun m => by simp [hadd, hself, place, OrdMap.find_erase, hp]⟩
      · exact .inl fun m => by simp [hadd, hself, place, OrdMap.find_erase, hp]

/-- **Folding the same changes again**: changes nothing. -/
theorem fold_again (id : NodeId) (ccs : List ConfChangeCommand)
    (m : OrdMap NodeId PeerAddress × Bool) :
    ccs.foldl (baseStep id) (ccs.foldl (baseStep id) m) = ccs.foldl (baseStep id) m :=
  (Overwrites.foldl (overwrites_baseStep id) ccs).twice (fun _ _ => place_ext) m

/-- The members that `RefreshMembership` leaves, unless it throws. -/
def derived (n : Node σ) : Except Exception (OrdMap NodeId PeerAddress × Bool) :=
  (fun _ => (n.refreshMembership.1.peers, n.refreshMembership.1.selfIsMember)) <$>
    n.refreshMembership.2

lemma derived_eq (n : Node σ) : derived n =
    (List.foldl (memberStep n.id n.role n.commitIndex)
      (n.membershipState.basePeers, n.membershipState.selfIsMember)) <$>
      confChanges n.log n.log.snapshotIndex n.log.lastIndex := by
  unfold derived refreshMembership
  cases confChanges n.log n.log.snapshotIndex n.log.lastIndex with
  | error e => rfl
  | ok changes =>
    show Except.ok ((n.effective changes).peers, (n.effective changes).selfMember) = _
    unfold effective
    rw [effective_members]
    rfl

lemma derived_restart (n : Node σ) (machine : σ) : derived (n.restart machine) =
    (fun changes => (changes.map Prod.snd).foldl (baseStep n.id)
      (n.membershipState.basePeers, n.membershipState.selfIsMember)) <$>
      confChanges n.log n.log.snapshotIndex n.log.lastIndex := by
  rw [derived_eq]
  show List.foldl (memberStep n.id .kFollower n.log.appliedIndex) _ <$>
    confChanges n.log n.log.snapshotIndex n.log.lastIndex = _
  congr 1
  funext changes
  exact foldl_memberStep (fun h => by cases h) _

lemma compact_members {changes : List (ℕ × ConfChangeCommand)}
    (h : confChanges n.log n.log.snapshotIndex n.lastApplied = .ok changes) :
    (n.compact.1.membershipState.basePeers, n.compact.1.membershipState.selfIsMember) =
      (changes.map Prod.snd).foldl (baseStep n.id)
        (n.membershipState.basePeers, n.membershipState.selfIsMember) := by
  unfold compact
  dsimp only
  rw [h]
  dsimp only
  split
  · rename_i hnil
    rw [hnil]
    rfl
  · rfl

lemma confChanges_all {changes : List (ℕ × ConfChangeCommand)}
    (h : confChanges n.log n.log.snapshotIndex n.lastApplied = .ok changes)
    (hlt : n.log.snapshotIndex < n.lastApplied) {log : RaftLog}
    (hlog : log = n.log.compactTo n.lastApplied (n.log.termAt n.lastApplied)) :
    confChanges n.log n.log.snapshotIndex n.log.lastIndex =
      (changes ++ ·) <$> confChanges log log.snapshotIndex log.lastIndex := by
  have hsnap : log.snapshotIndex = n.lastApplied := by
    rw [hlog]
    unfold RaftLog.compactTo
    rw [if_neg (by omega)]
  have hget : ∀ i, n.lastApplied < i → log.get i = n.log.get i := fun i hi =>
    hlog ▸ get_compactTo hlt hi
  obtain ⟨hi, hold, hnew, hmid⟩ :
      ∃ hi, n.log.lastIndex ≤ hi ∧ log.lastIndex ≤ hi ∧ n.lastApplied ≤ hi :=
    ⟨n.log.lastIndex + log.lastIndex + n.lastApplied, by omega, by omega, by omega⟩
  rw [confChanges_past hold, confChanges_past hnew, hsnap, confChanges_congr hget,
    confChanges_split n.log hlt.le hmid, h]
  rfl

/-- What has been applied is committed. -/
def AppliesCommitted (n : Node σ) : Prop := n.lastApplied ≤ n.commitIndex

/-- **Compaction does not change the members**, when what it takes is committed. -/
theorem derived_compact
    (h : n.role = .kLeader → n.lastApplied ≤ max n.commitIndex n.log.snapshotIndex) :
    derived n.compact.1 = derived n := by
  rcases n.compact_eq with heq | ⟨changes, errors, hchanges, heq⟩
  · rw [heq]
  have hmembers := compact_members hchanges
  rcases Nat.lt_or_ge n.log.snapshotIndex n.lastApplied with hlt | hge
  · have hall := confChanges_all hchanges hlt rfl
    have hcommitted : n.role = .kLeader → ∀ c ∈ changes, c.1 ≤ n.commitIndex :=
      fun hrole c hc => by
        have hle := h hrole
        have hchange := (mem_confChanges hchanges hc).2
        omega
    rw [derived_eq, derived_eq n, hall, hmembers, ← foldl_memberStep hcommitted]
    rw [heq]
    dsimp only
    cases confChanges (n.log.compactTo n.lastApplied (n.log.termAt n.lastApplied))
        (n.log.compactTo n.lastApplied (n.log.termAt n.lastApplied)).snapshotIndex
        (n.log.compactTo n.lastApplied (n.log.termAt n.lastApplied)).lastIndex with
    | error e => rfl
    | ok rest =>
      show Except.ok _ = Except.ok _
      rw [List.foldl_append]
  · -- the boundary is there already
    have hnil : changes = [] := by
      unfold confChanges at hchanges
      rw [Nat.sub_eq_zero_of_le hge] at hchanges
      cases hchanges
      rfl
    have hlog : n.compact.1.log = n.log := by
      rw [heq]
      unfold RaftLog.compactTo
      exact if_pos hge
    rw [derived_eq, derived_eq n, hlog, hmembers, hnil, heq]
    rfl

/-- The node between the two saves of a compaction: the changes are folded into the stored
members, and still in the log. -/
def folded (n : Node σ) : Node σ := { n with membershipState := n.compact.1.membershipState }

/-- **A crash between the two saves**: the node that starts again derives the members that it
would have derived without the first one. -/
theorem derived_folded (n : Node σ) (machine : σ) :
    derived ((folded n).restart machine) = derived (n.restart machine) := by
  rcases n.compact_eq with heq | ⟨changes, errors, hchanges, heq⟩
  · unfold folded
    rw [heq]
  have hmembers := compact_members hchanges
  rw [derived_restart, derived_restart]
  show (fun cs : List (ℕ × ConfChangeCommand) => (cs.map Prod.snd).foldl (baseStep n.id)
      (n.compact.1.membershipState.basePeers, n.compact.1.membershipState.selfIsMember)) <$>
    confChanges n.log n.log.snapshotIndex n.log.lastIndex = _
  rw [hmembers]
  rcases Nat.lt_or_ge n.log.snapshotIndex n.lastApplied with hlt | hge
  · rw [confChanges_all hchanges hlt rfl]
    cases confChanges (n.log.compactTo n.lastApplied (n.log.termAt n.lastApplied))
        (n.log.compactTo n.lastApplied (n.log.termAt n.lastApplied)).snapshotIndex
        (n.log.compactTo n.lastApplied (n.log.termAt n.lastApplied)).lastIndex with
    | error e => rfl
    | ok rest =>
      show Except.ok _ = Except.ok _
      dsimp only
      rw [List.map_append, List.foldl_append, fold_again, List.foldl_append]
  · unfold confChanges at hchanges
    rw [Nat.sub_eq_zero_of_le hge] at hchanges
    cases hchanges
    rfl

/-! ### Applying -/

lemma derived_applyNext (n : Node σ) : derived (n.applyNext cb).1 = derived n := by
  obtain ⟨errors, log, heq, rfl | rfl⟩ := @applyNext_eq σ cb n
  · rw [heq, derived_eq, derived_eq n]
  · rw [heq, derived_eq, derived_eq n]
    rfl

lemma applyLoop_members (h : AppliesCommitted n) :
    derived (n.applyLoop cb (n.commitIndex - n.lastApplied)).1 = derived n ∧
      AppliesCommitted (n.applyLoop cb (n.commitIndex - n.lastApplied)).1 := by
  have hle : n.lastApplied ≤ n.commitIndex := h
  refine (applyLoop_induct (P := fun m => (derived m = derived n ∧ AppliesCommitted m) ∧
    m.commitIndex = n.commitIndex) ⟨⟨rfl, h⟩, rfl⟩ ?_).1
  rintro m ⟨⟨hsame, -⟩, hcommit⟩ - hlt
  obtain ⟨errors, log, heq, -⟩ := @applyNext_eq σ cb m
  refine ⟨⟨(derived_applyNext m).trans hsame, ?_⟩, ?_⟩
  · rw [heq]
    show m.lastApplied + 1 ≤ m.commitIndex
    omega
  · rw [heq]
    exact hcommit

lemma applyCommitted_members (h : AppliesCommitted n) :
    derived (n.applyCommitted cb).1 = derived n ∧ AppliesCommitted (n.applyCommitted cb).1 := by
  obtain ⟨hsame, happlied⟩ := @applyLoop_members σ cb n h
  unfold applyCommitted Outcome.andThen
  cases (n.applyLoop cb (n.commitIndex - n.lastApplied)).2 with
  | error e => exact ⟨hsame, happlied⟩
  | ok u =>
    dsimp only
    split
    · refine ⟨(derived_compact fun _ => happlied.trans (le_max_left _ _)).trans hsame, ?_⟩
      rcases (n.applyLoop cb (n.commitIndex - n.lastApplied)).1.compact_eq with
        heq | ⟨_, _, -, heq⟩
      · rw [heq]
        exact happlied
      · rw [heq]
        exact happlied
    · exact ⟨hsame, happlied⟩

/-- What has been applied is committed, or is not to be compacted yet. The first may fail of a node
that a request has cut committed entries off. -/
def Tidy (n : Node σ) : Prop :=
  n.lastApplied ≤ n.commitIndex ∨ n.lastApplied < n.log.snapshotIndex + kCompactionThreshold

lemma tidy_congr (h : Tidy n) (happlied : n'.lastApplied = n.lastApplied)
    (hcommit : n'.commitIndex = n.commitIndex)
    (hsnap : n'.log.snapshotIndex = n.log.snapshotIndex) : Tidy n' := by
  unfold Tidy at h ⊢
  rwa [happlied, hcommit, hsnap]

lemma tidy_refresh (h : Tidy n) : Tidy n.refreshMembership.1 :=
  tidy_congr h (by simp) (by simp) (by simp)

lemma applyLoop_past (h : n.commitIndex < n.lastApplied) :
    n.applyLoop cb (n.commitIndex - n.lastApplied) = (n, .ok ()) := by
  rw [Nat.sub_eq_zero_of_le h.le]
  rfl

/-- **ApplyCommitted does not change the members**: it compacts nothing that a leader has not
committed. -/
lemma derived_applyCommitted (h : n.role = .kLeader → Tidy n) :
    derived (n.applyCommitted cb).1 = derived n := by
  rcases Nat.lt_or_ge n.commitIndex n.lastApplied with hpast | hle
  · unfold applyCommitted
    rw [applyLoop_past hpast]
    unfold Outcome.andThen
    dsimp only
    split_ifs with hgap
    · refine derived_compact fun hrole => ?_
      have hearly := (h hrole).resolve_left (by omega)
      unfold appliedGap at hgap
      split_ifs at hgap
      · omega
      · omega
    · rfl
  · exact (applyCommitted_members hle).1

lemma confChanges_applied {changes : List (ℕ × ConfChangeCommand)}
    (h : confChanges n.log n.log.snapshotIndex n.log.lastIndex = .ok changes)
    (hlt : n.log.snapshotIndex < n.lastApplied) :
    ∃ taken, confChanges n.log n.log.snapshotIndex n.lastApplied = .ok taken := by
  rcases Nat.le_total n.log.lastIndex n.lastApplied with hle | hle
  · rw [confChanges_past hle] at h
    exact ⟨changes, h⟩
  · rw [confChanges_split n.log hlt.le hle] at h
    cases htaken : confChanges n.log n.log.snapshotIndex n.lastApplied with
    | error e =>
      rw [htaken] at h
      cases h
    | ok taken => exact ⟨taken, rfl⟩

lemma tidy_compact (h : Tidy n ∨ ∃ changes,
    confChanges n.log n.log.snapshotIndex n.log.lastIndex = .ok changes) : Tidy n.compact.1 := by
  rcases Nat.lt_or_ge n.log.snapshotIndex n.lastApplied with hlt | hge
  · rcases n.compact_eq with heq | ⟨changes, errors, -, heq⟩
    · rcases h with htidy | ⟨changes, hchanges⟩
      · rwa [heq]
      · obtain ⟨taken, htaken⟩ := confChanges_applied hchanges hlt
        unfold Node.compact
        dsimp only
        rw [htaken]
        refine .inr ?_
        show n.lastApplied < _ + kCompactionThreshold
        rw [RaftLog.snapshotIndex_compactTo]
        unfold kCompactionThreshold
        omega
    · rw [heq]
      refine .inr ?_
      show n.lastApplied < _ + kCompactionThreshold
      rw [RaftLog.snapshotIndex_compactTo]
      unfold kCompactionThreshold
      omega
  · have hsame : n.compact.1.lastApplied = n.lastApplied ∧
        n.compact.1.log.snapshotIndex = n.log.snapshotIndex := by
      rcases n.compact_eq with heq | ⟨changes, errors, -, heq⟩ <;> rw [heq]
      · exact ⟨rfl, rfl⟩
      · exact ⟨rfl, (RaftLog.snapshotIndex_compactTo ..).trans (max_eq_left hge)⟩
    refine .inr ?_
    rw [hsame.1, hsame.2]
    exact hge.trans_lt (Nat.lt_add_of_pos_right (by decide))

/-- Whatever the commit index: what is applied behind it is compacted when it is due. -/
lemma tidy_applyCommitted (h : Tidy n ∨ ∃ changes,
    confChanges n.log n.log.snapshotIndex n.log.lastIndex = .ok changes) :
    Tidy (n.applyCommitted cb).1 := by
  rcases Nat.lt_or_ge n.commitIndex n.lastApplied with hpast | hle
  · unfold applyCommitted
    rw [applyLoop_past hpast]
    unfold Outcome.andThen
    dsimp only
    split_ifs with hgap
    · exact tidy_compact h
    · refine .inr ?_
      show n.lastApplied < n.log.snapshotIndex + kCompactionThreshold
      unfold appliedGap at hgap
      split_ifs at hgap
      · omega
      · omega
  · exact .inl (applyCommitted_members hle).2

/-! ### Runs -/

lemma tidy_settles (h : Tidy n) (hcommits : ∀ old new, commits old new → old ≤ new)
    (hsettles : Settles cb commits n n') : Tidy n' := by
  refine hsettles.keeps h fun a b ha hmove => ?_
  cases hmove with
  | refresh => exact tidy_refresh ha
  | commit i hi =>
    have hle := hcommits _ _ hi
    refine tidy_applyCommitted (.inl (ha.imp_left fun hold => ?_))
    exact hold.trans hle
  | note => exact ha
  | stepDown => exact ha

variable {s s' : Sys σ}

lemma confChanges_of_refresh (h : n.refreshMembership.2 = .ok ()) : ∃ changes,
    confChanges n.log n.log.snapshotIndex n.log.lastIndex = .ok changes := by
  unfold refreshMembership at h
  split at h
  · cases h
  · rename_i changes hchanges
    exact ⟨changes, hchanges⟩

lemma tidy_adopted (h : Tidy n) (req : InstallSnapshotRequest) : Tidy (n.adopted req) := by
  have hsnap : n.log.snapshotIndex ≤ (n.adopted req).log.snapshotIndex := by
    unfold adopted
    dsimp only
    split_ifs
    · exact (le_max_left _ _).trans (RaftLog.snapshotIndex_compactTo ..).ge
    · exact (le_max_left _ _).trans (RaftLog.snapshotIndex_compactTo ..).ge
  rcases h with hle | hearly
  · exact .inl (max_le_max le_rfl hle)
  rcases Nat.le_total req.lastIncludedIndex n.lastApplied with hbehind | hahead
  · refine .inr ?_
    show max req.lastIncludedIndex n.lastApplied < _
    omega
  · refine .inl ?_
    show max req.lastIncludedIndex n.lastApplied ≤ max req.lastIncludedIndex n.commitIndex
    omega

lemma tidy_handleAppendEntries (h : Tidy n) (now : ℕ) (req : AppendEntriesRequest) :
    Tidy (n.handleAppendEntries cb now req).1 := by
  have hheard : Tidy (n.heardFrom now req.term req.leaderId) :=
    tidy_congr h (by simp) (by simp) (by simp)
  unfold handleAppendEntries
  split_ifs
  · exact h
  dsimp only
  split
  · exact hheard
  rename_i log hlog
  have hsnap := (RaftLog.appendEntriesFrom_snapshot hlog).1
  have htaken : Tidy ((n.heardFrom now req.term req.leaderId).withLog log) :=
    tidy_congr hheard (by simp) (by simp) (by simpa using hsnap)
  generalize (n.heardFrom now req.term req.leaderId).withLog log = m at htaken ⊢
  refine Outcome.andThen_rule (P := Tidy) (tidy_refresh htaken) fun _ hok => ?_
  rw [Outcome.andThen_fst fun _ _ => rfl]
  unfold followCommit
  split_ifs
  · -- the members could be derived, so the changes can be taken
    refine tidy_applyCommitted (.inr ?_)
    simpa using confChanges_of_refresh hok
  · exact tidy_refresh htaken

lemma handle_tidy (hterm : s.node.role ≠ .kFollower → 0 < s.node.state.currentTerm)
    (h : Tidy s.node) {e : Event} (hstep : handle cb s e = some s') : Tidy s'.node := by
  have hcases := handled hterm hstep
  have happend : ∀ now req, e = .append now req → Tidy s'.node := by
    rintro now req rfl
    cases hstep
    exact tidy_handleAppendEntries h now req
  generalize s'.node = n at hcases happend ⊢
  cases hcases with
  | quiet hquiet =>
    exact tidy_congr h hquiet.lastApplied hquiet.commitIndex (congrArg _ hquiet.log)
  | append => exact happend _ _ rfl
  | @advance _ m hadv =>
    have hm : Tidy m := by
      obtain ⟨-, ⟨hquiet, -⟩ | ⟨command, -, -, rfl⟩⟩ := advances_cases hadv
      · exact tidy_congr h hquiet.lastApplied hquiet.commitIndex (congrArg _ hquiet.log)
      · exact tidy_refresh (n := s.node.withLog _) h
    exact tidy_settles hm (fun _ _ hadvances => hadvances.1.le) (maybeAdvanceCommitIndex_settles m)
  | thrown hrefusal => exact tidy_refresh (n := s.node.withLog _) h
  | restore req => exact h
  | @adopt req hs hlt => exact tidy_refresh (tidy_adopted h req)

lemma step_tidy (hterm : s.node.role ≠ .kFollower → 0 < s.node.state.currentTerm)
    (h : Tidy s.node) {a : Action} (hstep : NodeCrash.step cb s a = some s') :
    Tidy s'.node ∧ (s'.node.role ≠ .kFollower → 0 < s'.node.state.currentTerm) := by
  cases a with
  | handle e => exact ⟨handle_tidy hterm h hstep, (handled hterm hstep).term hterm⟩
  | crash =>
    cases hstep
    exact ⟨.inl (Nat.le_refl _), fun hrole => absurd rfl hrole⟩
  | crashIn e k =>
    obtain ⟨n, -, rfl⟩ := Option.map_eq_some_iff.mp hstep
    exact ⟨.inl (Nat.le_refl _), fun hrole => absurd rfl hrole⟩

lemma advanceApplies_tidy (h : Tidy n) {m : Node σ} (hm : n.advanceApplies = some m) :
    Tidy m := by
  unfold advanceApplies at hm
  split_ifs at hm with hcheck
  cases hm
  exact h.imp_left fun hle => hle.trans hcheck.1.le

/-- A leader that calls `ApplyCommitted` has applied what is committed, or is not to compact it
yet. -/
lemma applies_tidy (h : Tidy s.node) {e : Event} {m : Node σ} (hm : applies s e = some m) :
    m.role = .kLeader → Tidy m := by
  cases e with
  | append now req =>
    intro hrole
    simp only [applies, appendApplies] at hm
    split_ifs at hm with hterm
    obtain ⟨log, hlog, hm⟩ := Option.bind_eq_some_iff.mp hm
    obtain ⟨-, -, hm⟩ := Option.bind_eq_some_iff.mp hm
    unfold followApplies at hm
    split_ifs at hm
    cases hm
    have hfollows := heardFrom_role s.node now req.term req.leaderId
    simp [hfollows] at hrole
  | appendReply peer term prevLogIndex sentCount resp =>
    simp only [applies, replyApplies] at hm
    split_ifs at hm
    exact fun _ => advanceApplies_tidy (n := (s.node.replicationLost peer).acknowledged peer _) h hm
  | propose command =>
    simp only [applies, proposeApplies] at hm
    split at hm
    · obtain ⟨-, -, hm⟩ := Option.bind_eq_some_iff.mp hm
      have hlogged : Tidy
          (s.node.withLog (s.node.log.append s.node.state.currentTerm command).1) := h
      exact fun _ => advanceApplies_tidy (tidy_refresh hlogged) hm
    · cases hm
  | _ => cases hm

lemma mem_writes {e : Event} {m : Node σ} (hm : applies s e = some m) {w : Node σ}
    (hw : w ∈ m.applyCommittedWrites cb) : w ∈ NodeCrash.writes cb s e := by
  cases e with
  | append now req =>
    have hm : s.node.appendApplies now req = some m := hm
    simp only [NodeCrash.writes, appendWrites]
    have hterm : ¬ req.term < s.node.state.currentTerm := fun hlt => by
      unfold appendApplies at hm
      rw [if_pos hlt] at hm
      cases hm
    rw [if_neg hterm, hm]
    simp [hw]
  | appendReply peer term prevLogIndex sentCount resp =>
    have hm : s.node.replyApplies peer term prevLogIndex sentCount resp = some m := hm
    simp only [NodeCrash.writes]
    rw [hm]
    simpa using hw
  | propose command =>
    have hm : s.node.proposeApplies command = some m := hm
    simp only [NodeCrash.writes, proposeWrites]
    have hrefusal : s.node.refusal command = .ok none := by
      unfold proposeApplies at hm
      split at hm
      · assumption
      · cases hm
    rw [hrefusal, hm]
    simp [hw]
  | _ => cases hm

/-- **Compaction does not change membership**: in every state that a node gets into, with
crashes anywhere, `RefreshMembership` computes the same members before and behind each call of
`ApplyCommitted`. When that call compacts and crashes between the save of the members and the
save of the log, the node that starts again computes the same ones as if it had crashed before
both, and still does when it has folded the changes a second time. -/
theorem compaction_keeps_members {id : NodeId} {ownAddress : PeerAddress}
    {peers : OrdMap NodeId PeerAddress} {joining : Bool} {start : σ}
    (hrun : Reach (NodeCrash.Step cb) (fun _ _ => True)
      (begin id ownAddress peers joining start) s)
    {e : Event} {m : Node σ} (hm : applies s e = some m) :
    derived (m.applyCommitted cb).1 = derived m ∧
    ∀ x, m.applyLoop cb (m.commitIndex - m.lastApplied) = (x, .ok ()) →
      kCompactionThreshold ≤ x.appliedGap →
        (∃ k, NodeCrash.step cb s (.crashIn e k) = some (restarted (folded x))) ∧
        derived (restarted (folded x)).node = derived (restarted x).node ∧
        derived (restarted (folded x)).node.compact.1 = derived (restarted x).node := by
  have htidy : Tidy s.node := by
    refine (hrun.invariant (I := fun s => Tidy s.node ∧
      (s.node.role ≠ .kFollower → 0 < s.node.state.currentTerm))
      ⟨.inl (Nat.le_refl _), fun hrole => absurd rfl hrole⟩ ?_).1
    exact fun s a s' h _ hstep => step_tidy h.2 h.1 hstep
  refine ⟨derived_applyCommitted (applies_tidy htidy hm), fun x hx hgap => ?_⟩
  have hcrashed : derived (restarted (folded x)).node = derived (restarted x).node :=
    derived_folded x x.machine
  refine ⟨?_, hcrashed, ?_⟩
  · have hw : folded x ∈ m.applyCommittedWrites cb := by
      unfold applyCommittedWrites
      dsimp only
      rw [hx]
      dsimp only
      rw [if_pos hgap]
      exact List.mem_append_right _ (List.mem_cons_self ..)
    obtain ⟨k, hk⟩ := List.mem_iff_getElem?.mp (mem_writes hm hw)
    exact ⟨k, Option.map_eq_some_iff.mpr ⟨_, hk, rfl⟩⟩
  · exact (derived_compact fun hrole => by cases hrole).trans hcrashed

/-- A follower is sent five entries, all committed: two servers come, and one of them and the
follower itself go. -/
def changes : AppendEntriesRequest := ⟨1, 2, 0, 0,
  [⟨1, 1, encodeConfChange ⟨kAddServer, 3, [], 0⟩⟩,
    ⟨2, 1, encodeConfChange ⟨kAddServer, 4, [], 0⟩⟩,
    ⟨3, 1, encodeConfChange ⟨kRemoveServer, 3, [], 0⟩⟩,
    ⟨4, 1, encodeConfChange ⟨kRemoveServer, 1, [], 0⟩⟩, ⟨5, 1, [5]⟩], 5⟩

def follower : Sys Unit := begin 1 ⟨[], 0⟩ (OrdMap.empty.insert 2 ⟨[], 0⟩) false ()

/-- The follower compacts them away, and its members stay. -/
theorem compaction_keeps_members_five : ∃ m : Node Unit, m.log.snapshotIndex = 0 ∧
    (m.applyCommitted CommitRule.idle).1.log.snapshotIndex = 5 ∧
    derived (m.applyCommitted CommitRule.idle).1 = derived m := by
  obtain ⟨m, hm, hold, hnew⟩ := exists_of_any (P := fun m : Node Unit =>
      m.log.snapshotIndex = 0 ∧ (m.applyCommitted CommitRule.idle).1.log.snapshotIndex = 5)
    (x := applies follower (.append 0 changes)) (by decide +kernel)
  exact ⟨m, hold, hnew, (compaction_keeps_members .refl hm).1⟩

end DistDB.MembershipFold
