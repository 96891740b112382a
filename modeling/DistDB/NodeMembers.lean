import Mathlib.Data.List.GetD
import DistDB.Config
import DistDB.NodeSteps

/-!
The members that a node derives from its log, against the configuration that its whole log
puts in force.

A node keeps the members in force behind its snapshot boundary on disk (`Stored`) and derives
the others from the conf changes that its log still holds. On such a node both folds of the
source compute the configuration of the whole log (`refresh_knows`, `compact_stored`).
-/

namespace DistDB.NodeModel

open Config FullLog Checks TermLog

variable {σ : Type}

def ConfChangeCommand.change (cc : ConfChangeCommand) : Change NodeId :=
  if cc.type = kAddServer then .add cc.serverId else .remove cc.serverId

/-- The conf change that an entry is. -/
def confChange (e : LogEntry) : Option ConfChangeCommand :=
  match tryDecodeConfChange e.command with
  | .ok cc => cc
  | .error _ => none

instance : HasChange LogEntry NodeId := ⟨fun e => (confChange e).map ConfChangeCommand.change⟩

lemma change_eq (e : LogEntry) : change e = (confChange e).map ConfChangeCommand.change := rfl

/-- The conf changes among the entries, each with its index. -/
def changesOf (ds : List LogEntry) : List (ℕ × ConfChangeCommand) :=
  ds.filterMap fun e => (confChange e).map (e.index, ·)

lemma changesOf_eq_nil {ds : List LogEntry} : changesOf ds = [] ↔ Plain ds := by
  simp only [changesOf, List.filterMap_eq_nil_iff, Option.map_eq_none_iff, Plain, change_eq]

lemma filterMapM_ok {ε α β : Type} {f : α → Except ε (Option β)} {g : α → Option β}
    {xs : List α} (h : ∀ x ∈ xs, f x = .ok (g x)) :
    xs.filterMapM f = .ok (xs.filterMap g) := by
  induction xs with
  | nil => rfl
  | cons x xs ih =>
    rw [List.filterMapM_cons, h x (by simp), ih fun y hy => h y (by simp [hy]), List.filterMap_cons]
    cases g x <;> rfl

lemma filterMap_range' {l : List LogEntry} (hl : Indexed l) (lo k : ℕ) :
    (List.range' (lo + 1) k).filterMap
      (fun i => l[i - 1]?.bind fun e => (confChange e).map (i, ·)) =
      changesOf ((l.drop lo).take k) := by
  induction k generalizing lo with
  | zero => rfl
  | succ k ih =>
    rw [List.range'_succ, List.filterMap_cons, ih (lo + 1), Nat.add_sub_cancel]
    cases hget : l[lo]? with
    | none =>
      have hlen := List.getElem?_eq_none_iff.mp hget
      rw [List.drop_eq_nil_of_le hlen, List.drop_eq_nil_of_le (by omega), List.take_nil,
        List.take_nil]
      rfl
    | some e =>
      have hdrop : l.drop lo = e :: l.drop (lo + 1) := by
        obtain ⟨hlt, rfl⟩ := List.getElem?_eq_some_iff.mp hget
        exact List.drop_eq_getElem_cons hlt
      rw [hdrop, List.take_succ_cons, changesOf, changesOf, Option.bind_some,
        List.filterMap_cons (a := e), hl lo e hget]

namespace Node

lemma confChanges_eq {log : RaftLog} {l : List LogEntry} (h : Holds log l) (hd : Decodable log)
    {lo : ℕ} (hlo : log.snapshotIndex ≤ lo) (hi : ℕ) :
    confChanges log lo hi = .ok (changesOf ((l.drop lo).take (hi - lo))) := by
  rw [← filterMap_range' h.indexed]
  refine filterMapM_ok fun i hmem => ?_
  obtain ⟨hlt, -⟩ := List.mem_range'_1.mp hmem
  have hget := h.get (show log.snapshotIndex < i by omega)
  rw [← hget]
  cases hentry : log.get i with
  | none => rfl
  | some e =>
    obtain ⟨cc, hcc⟩ := hd e (RaftLog.get_mem hentry)
    simp only [hcc, Option.bind_some, confChange]
    rfl

/-! ### The folds -/

/-- What the fold of `RefreshMembership` holds of a configuration. -/
structure Effective.Describes (v : NodeId) (m : Effective) (c : Finset NodeId) : Prop where
  peers : m.peers.keys = c.erase v
  self : (m.selfMember = true ∧ m.pendingRemoval = 0) ↔ v ∈ c

lemma Effective.Describes.step {v : NodeId} {m : Effective} {c : Finset NodeId}
    (h : m.Describes v c) {role : Role} {commitIndex i : ℕ} (hi : 0 < i)
    (cc : ConfChangeCommand) : (effectiveStep v role commitIndex m (i, cc)).Describes v
    (cc.change.apply c) := by
  unfold effectiveStep ConfChangeCommand.change
  dsimp only
  by_cases hadd : cc.type = kAddServer
  · rw [if_pos hadd, if_pos hadd]
    by_cases hself : cc.serverId = v
    · rw [if_pos hself]
      exact ⟨by simp [Change.apply, hself, h.peers], by simp [Change.apply, hself]⟩
    · rw [if_neg hself]
      refine ⟨?_, ?_⟩
      · simp only [OrdMap.keys_insert, h.peers, Change.apply]
        rw [Finset.erase_insert_of_ne hself]
      · simp [Change.apply, h.self, Ne.symm hself]
  · rw [if_neg hadd, if_neg hadd]
    by_cases hself : cc.serverId = v
    · rw [if_pos hself]
      split
      · exact ⟨by simp [Change.apply, hself, h.peers], by simp [Change.apply, hself]; omega⟩
      · exact ⟨by simp [Change.apply, hself, h.peers], by simp [Change.apply, hself]⟩
    · rw [if_neg hself]
      refine ⟨?_, ?_⟩
      · simp only [OrdMap.keys_erase, h.peers, Change.apply]
        rw [Finset.erase_right_comm]
      · simp [Change.apply, h.self, Ne.symm hself]

lemma Effective.Describes.fold {v : NodeId} {m : Effective} {c : Finset NodeId}
    (h : m.Describes v c) (role : Role) (commitIndex : ℕ) {ds : List LogEntry}
    (hds : ∀ e ∈ ds, 0 < e.index) :
    ((changesOf ds).foldl (effectiveStep v role commitIndex) m).Describes v (config c ds) := by
  induction ds generalizing m c with
  | nil => exact h
  | cons e ds ih =>
    have hds' : ∀ e ∈ ds, 0 < e.index := fun e' he' => hds e' (by simp [he'])
    rw [changesOf, List.filterMap_cons]
    show Describes v _ (config ((change e).elim c fun x => x.apply c) ds)
    rw [change_eq]
    cases confChange e with
    | none => exact ih h hds'
    | some cc => exact ih (h.step (hds e (by simp)) cc) hds'

/-- What the stored members, or the fold that moves changes into them, hold of a
configuration. -/
structure BaseOf (v : NodeId) (m : OrdMap NodeId PeerAddress × Bool) (c : Finset NodeId) :
    Prop where
  peers : m.1.keys = c.erase v
  self : m.2 = true ↔ v ∈ c

lemma BaseOf.step {v : NodeId} {m : OrdMap NodeId PeerAddress × Bool} {c : Finset NodeId}
    (h : BaseOf v m c) (cc : ConfChangeCommand) :
    BaseOf v (baseStep v m cc) (cc.change.apply c) := by
  unfold baseStep ConfChangeCommand.change
  by_cases hadd : cc.type = kAddServer
  · rw [if_pos hadd, if_pos hadd]
    by_cases hself : cc.serverId = v
    · rw [if_pos hself]
      exact ⟨by simp [Change.apply, hself, h.peers], by simp [Change.apply, hself]⟩
    · rw [if_neg hself]
      refine ⟨?_, ?_⟩
      · simp only [OrdMap.keys_insert, h.peers, Change.apply]
        rw [Finset.erase_insert_of_ne hself]
      · simp [Change.apply, h.self, Ne.symm hself]
  · rw [if_neg hadd, if_neg hadd]
    by_cases hself : cc.serverId = v
    · rw [if_pos hself]
      exact ⟨by simp [Change.apply, hself, h.peers], by simp [Change.apply, hself]⟩
    · rw [if_neg hself]
      refine ⟨?_, ?_⟩
      · simp only [OrdMap.keys_erase, h.peers, Change.apply]
        rw [Finset.erase_right_comm]
      · simp [Change.apply, h.self, Ne.symm hself]

lemma BaseOf.fold {v : NodeId} {m : OrdMap NodeId PeerAddress × Bool} {c : Finset NodeId}
    (h : BaseOf v m c) (ds : List LogEntry) :
    BaseOf v (((changesOf ds).map Prod.snd).foldl (baseStep v) m) (config c ds) := by
  induction ds generalizing m c with
  | nil => exact h
  | cons e ds ih =>
    rw [changesOf, List.filterMap_cons]
    show BaseOf v _ (config ((change e).elim c fun x => x.apply c) ds)
    rw [change_eq]
    cases confChange e with
    | none => exact ih h
    | some cc => exact ih (h.step cc)

/-- The members on the node's disk are those of the configuration. -/
def Stored (v : NodeId) (n : Node σ) (c : Finset NodeId) : Prop :=
  BaseOf v (n.membershipState.basePeers, n.membershipState.selfIsMember) c

/-- The members the node goes by are those of the configuration. -/
structure Knows (v : NodeId) (n : Node σ) (c : Finset NodeId) : Prop where
  peers : n.peers.keys = c.erase v
  self : (n.selfIsMember = true ∧ n.pendingSelfRemovalIndex = 0) ↔ v ∈ c

variable {v : NodeId} {n : Node σ} {l : List LogEntry} {base : Finset NodeId}

lemma Knows.ids {c : Finset NodeId} (h : Knows v n c) (hv : v ∈ c) :
    insert v n.peers.keys = c := by
  rw [h.peers, Finset.insert_erase hv]

lemma refreshMembership_eq (h : Holds n.log l) (hd : Decodable n.log) : n.refreshMembership =
    (n.setMembership (n.effective (changesOf (l.drop n.log.snapshotIndex))), .ok ()) := by
  unfold refreshMembership
  rw [confChanges_eq h hd le_rfl, h.lastIndex, List.take_of_length_le (by simp)]

/-- **What RefreshMembership computes**: the configuration of the whole log. -/
theorem refresh_knows (h : Holds n.log l) (hd : Decodable n.log) (hid : n.id = v)
    (hs : Stored v n (config base (l.take n.log.snapshotIndex))) :
    Knows v n.refreshMembership.1 (config base l) := by
  have hstart : Effective.Describes v
      ⟨n.membershipState.basePeers, n.membershipState.selfIsMember, 0⟩
      (config base (l.take n.log.snapshotIndex)) :=
    ⟨hs.peers, by simpa using hs.self⟩
  have hpos : ∀ e ∈ l.drop n.log.snapshotIndex, 0 < e.index := by
    intro e he
    obtain ⟨i, hi⟩ := List.mem_iff_getElem?.mp he
    rw [h.indexed.drop hi]
    exact Nat.succ_pos _
  have hfold := hstart.fold n.role n.commitIndex hpos
  rw [← config_append, List.take_append_drop] at hfold
  rw [refreshMembership_eq h hd]
  unfold effective
  rw [hid]
  exact ⟨hfold.peers, hfold.self⟩

lemma refreshMembership_pending (h : n.role ≠ .kLeader) :
    n.refreshMembership.1.pendingSelfRemovalIndex = 0 := by
  unfold refreshMembership
  split
  · rfl
  · show (n.effective _).pendingRemoval = 0
    unfold effective
    refine List.foldlRecOn (motive := fun m : Effective => m.pendingRemoval = 0) _ _ rfl ?_
    intro m hm change _
    unfold effectiveStep
    dsimp only
    split_ifs with hadd hself hself hlead
    · rfl
    · exact hm
    · exact absurd hlead.1 h
    · exact hm
    · exact hm

/-- **What a compaction stores**: the configuration behind what has been applied. -/
theorem compact_stored (h : Holds n.log l) (hd : Decodable n.log) (hid : n.id = v)
    (hs : Stored v n (config base (l.take n.log.snapshotIndex)))
    (hlo : n.log.snapshotIndex ≤ n.lastApplied) :
    Stored v n.compact.1 (config base (l.take n.lastApplied)) := by
  have hfold := hs.fold ((l.drop n.log.snapshotIndex).take (n.lastApplied - n.log.snapshotIndex))
  rw [← config_append, ← List.drop_take] at hfold
  have htake : l.take n.log.snapshotIndex ++
      (l.take n.lastApplied).drop n.log.snapshotIndex = l.take n.lastApplied := by
    rw [← Nat.min_eq_left hlo, ← List.take_take, Nat.min_eq_left hlo, List.take_append_drop]
  rw [htake] at hfold
  unfold compact
  dsimp only
  rw [confChanges_eq h hd le_rfl, ← List.drop_take]
  unfold Stored
  dsimp only
  split
  · rename_i hnil
    rw [hnil] at hfold
    exact hfold
  · rw [hid]
    exact hfold

/-! ### The notes of a leader about its peers -/

lemma find_foldl_erase {β : Type} (removed : List (NodeId × β)) (map : OrdMap NodeId ℕ)
    (p : NodeId) : (removed.foldl (fun map q => map.erase q.1) map).find p =
      if p ∈ removed.map Prod.fst then none else map.find p := by
  induction removed generalizing map with
  | nil => rfl
  | cons q removed ih =>
    rw [List.foldl_cons, ih, OrdMap.find_erase, List.map_cons]
    by_cases hp : p = q.1 <;> by_cases hin : p ∈ removed.map Prod.fst <;> simp [hp, hin]

lemma find_foldl_insert {β : Type} (added : List (NodeId × β)) (map : OrdMap NodeId ℕ)
    (i : ℕ) (p : NodeId) : (added.foldl (fun map q => map.insert q.1 i) map).find p =
      if p ∈ added.map Prod.fst then some i else map.find p := by
  induction added generalizing map with
  | nil => rfl
  | cons q added ih =>
    rw [List.foldl_cons, ih, OrdMap.find_insert, List.map_cons]
    by_cases hp : p = q.1 <;> by_cases hin : p ∈ added.map Prod.fst <;> simp [hp, hin]

lemma mem_fst_filter {m m' : OrdMap NodeId PeerAddress} {p : NodeId} :
    p ∈ (m.entries.filter fun q => (m'.find q.1).isNone).map Prod.fst ↔
      p ∈ m.keys ∧ p ∉ m'.keys := by
  simp only [OrdMap.mem_keys, List.mem_map, List.mem_filter, Option.isSome_iff_exists]
  constructor
  · rintro ⟨⟨q, a⟩, ⟨hmem, hnone⟩, rfl⟩
    refine ⟨⟨a, m.mem_entries.mp hmem⟩, ?_⟩
    rintro ⟨b, hb⟩
    simp [hb] at hnone
  · rintro ⟨⟨a, ha⟩, hnone⟩
    refine ⟨(p, a), ⟨m.mem_entries.mpr ha, ?_⟩, rfl⟩
    cases hb : m'.find p with
    | none => rfl
    | some b => exact absurd ⟨b, hb⟩ hnone

lemma find_seed (n : Node σ) (peers : OrdMap NodeId PeerAddress) (map : OrdMap NodeId ℕ)
    (i : ℕ) (p : NodeId) :
    ((n.peers.entries.filter fun q => (peers.find q.1).isNone).foldl (fun map q => map.erase q.1)
      (if n.role = .kLeader then
        (peers.entries.filter fun q => (n.peers.find q.1).isNone).foldl
          (fun map q => map.insert q.1 i) map
      else map)).find p =
    if p ∈ n.peers.keys ∧ p ∉ peers.keys then none
    else if n.role = .kLeader ∧ p ∈ peers.keys ∧ p ∉ n.peers.keys then some i
      else map.find p := by
  rw [find_foldl_erase]
  simp only [mem_fst_filter]
  by_cases hrole : n.role = .kLeader
  · rw [if_pos hrole, find_foldl_insert]
    simp only [mem_fst_filter, hrole, true_and]
  · rw [if_neg hrole]
    simp only [hrole, false_and, if_false]

/-- A node has notes about its peers only, and a leader has one about each of them. -/
structure Noted (n : Node σ) : Prop where
  next : ∀ p i, n.nextIndex.find p = some i → 0 < i → p ∈ n.peers.keys
  matched : n.matchIndex.keys ⊆ n.peers.keys
  all : n.role = .kLeader → n.matchIndex.keys = n.peers.keys

lemma Noted.setMembership (h : Noted n) (m : Effective) : Noted (n.setMembership m) where
  next := fun p i hi hpos => by
    unfold Node.setMembership at hi ⊢
    dsimp only at hi ⊢
    rw [find_seed] at hi
    split_ifs at hi with hremoved hadded
    · exact hadded.2.1
    · by_contra hout
      exact hremoved ⟨h.next p i hi hpos, hout⟩
  matched := fun p hp => by
    rw [OrdMap.mem_keys] at hp
    unfold Node.setMembership at hp ⊢
    dsimp only at hp ⊢
    rw [find_seed] at hp
    split_ifs at hp with hremoved hadded
    · cases hp
    · exact hadded.2.1
    · by_contra hout
      exact hremoved ⟨h.matched (n.matchIndex.mem_keys.mpr hp), hout⟩
  all := fun hrole => by
    have hold := h.all hrole
    ext p
    have hp : p ∈ n.matchIndex.keys ↔ p ∈ n.peers.keys := by rw [hold]
    rw [OrdMap.mem_keys] at hp
    rw [OrdMap.mem_keys]
    have hrole' : n.role = .kLeader := hrole
    unfold Node.setMembership
    dsimp only
    rw [find_seed]
    by_cases hin : p ∈ n.peers.keys <;> by_cases hin' : p ∈ m.peers.keys <;>
      simp [hin, hin', hrole', hp]

lemma Noted.refreshMembership (h : Noted n) : Noted n.refreshMembership.1 := by
  unfold Node.refreshMembership
  split
  · exact ⟨h.next, h.matched, h.all⟩
  · exact h.setMembership _

lemma find_refreshMembership (n : Node σ) {p : NodeId} {i : ℕ} :
    (n.refreshMembership.1.nextIndex.find p = some i → i = 1 ∨ n.nextIndex.find p = some i) ∧
    (n.refreshMembership.1.matchIndex.find p = some i → i = 0 ∨
      n.matchIndex.find p = some i) := by
  unfold Node.refreshMembership
  split
  · exact ⟨.inr, .inr⟩
  · unfold Node.setMembership
    dsimp only
    rw [find_seed, find_seed]
    constructor <;> intro hi <;> split_ifs at hi
    · exact .inl (Option.some.inj hi).symm
    · exact .inr hi
    · exact .inl (Option.some.inj hi).symm
    · exact .inr hi

lemma majorityIndex_mem (n : Node σ) :
    n.majorityIndex ∈ n.log.lastIndex :: n.matchIndex.entries.map Prod.snd := by
  unfold majorityIndex
  dsimp only
  rw [List.getD_eq_getElem _ _ (by rw [List.length_insertionSort]; simp; omega)]
  exact (List.mem_insertionSort _).mp (List.getElem_mem _)

/-- **The middle of the indices**: it is reached by more than half of them. -/
lemma majorityIndex_count (n : Node σ) : n.matchIndex.size + 1 <
    2 * (n.log.lastIndex :: n.matchIndex.entries.map Prod.snd).countP (n.majorityIndex ≤ ·) := by
  obtain ⟨xs, hxs⟩ : ∃ xs, n.log.lastIndex :: n.matchIndex.entries.map Prod.snd = xs :=
    ⟨_, rfl⟩
  obtain ⟨ys, hys⟩ : ∃ ys, xs.insertionSort (· ≥ ·) = ys := ⟨_, rfl⟩
  have hlen : ys.length = n.matchIndex.size + 1 := by
    rw [← hys, List.length_insertionSort, ← hxs, OrdMap.size]
    simp
  have hindex : n.majorityIndex = ys.getD (ys.length / 2) 0 := by
    unfold majorityIndex
    dsimp only
    rw [hxs, hys, ← hys, List.length_insertionSort]
  have hsorted : ys.Pairwise (· ≥ ·) := hys ▸ List.pairwise_insertionSort _ xs
  have hlt : ys.length / 2 < ys.length := by omega
  have hcount : xs.countP (n.majorityIndex ≤ ·) = ys.countP (n.majorityIndex ≤ ·) :=
    hys ▸ (List.perm_insertionSort _ xs).symm.countP_eq _
  -- the indices up to the middle one are no lower
  have hfront : (ys.take (ys.length / 2 + 1)).countP
      (n.majorityIndex ≤ ·) = ys.length / 2 + 1 := by
    rw [List.countP_eq_length.mpr, List.length_take]
    · omega
    · intro y hy
      obtain ⟨i, hi, rfl⟩ := List.mem_take_iff_getElem.mp hy
      rw [hindex, List.getD_eq_getElem _ _ hlt, decide_eq_true_iff]
      rcases Nat.lt_or_eq_of_le (show i ≤ ys.length / 2 by omega) with hi' | rfl
      · exact List.pairwise_iff_getElem.mp hsorted i _ (by omega) hlt hi'
      · exact le_rfl
  have hle := (List.take_sublist (ys.length / 2 + 1) ys).countP_le (p := (n.majorityIndex ≤ ·))
  rw [hxs, hcount]
  omega

/-- The peers that have acknowledged up to the index. -/
def acked (n : Node σ) (i : ℕ) : Finset NodeId :=
  n.matchIndex.keys.filter fun p => i ≤ (n.matchIndex.find p).getD 0

lemma card_acked (n : Node σ) (i : ℕ) :
    (n.acked i).card = (n.matchIndex.entries.map Prod.snd).countP (i ≤ ·) := by
  have hnodup : (n.matchIndex.entries.map Prod.fst).Nodup :=
    List.pairwise_map.mpr (n.matchIndex.asc.imp fun h => ne_of_lt h)
  have hfilter : n.acked i = ((n.matchIndex.entries.map Prod.fst).filter fun p =>
      i ≤ (n.matchIndex.find p).getD 0).toFinset := by
    rw [List.toFinset_filter, acked, OrdMap.keys]
    simp
  rw [hfilter, List.toFinset_card_of_nodup (hnodup.filter _), List.filter_map, List.length_map,
    List.countP_map, List.countP_eq_length_filter]
  congr 1
  refine List.filter_congr fun e he => ?_
  obtain ⟨p, j⟩ := e
  simp [(n.matchIndex.mem_entries).mp he]

/-- **A majority has what a leader may commit**: itself, and peers that acknowledged it. -/
theorem majority_acked (h : Noted n) (hrole : n.role = .kLeader) (hv : v ∉ n.peers.keys) :
    Majority (insert v (n.acked n.majorityIndex)) (insert v n.peers.keys) := by
  have hsub : n.acked n.majorityIndex ⊆ n.peers.keys :=
    (Finset.filter_subset _ _).trans h.matched
  refine ⟨Finset.insert_subset_insert v hsub, ?_⟩
  have hcount := n.majorityIndex_count
  have hcard := n.card_acked n.majorityIndex
  rw [List.countP_cons] at hcount
  rw [Finset.card_insert_of_notMem hv, Finset.card_insert_of_notMem fun hin => hv (hsub hin),
    ← h.all hrole, OrdMap.card_keys]
  split_ifs at hcount <;> omega

end Node

end DistDB.NodeModel
