import DistDB.MembershipFold

/-!
The conf changes in a node's log that are about the node itself.

A node is removed when the last of them is a removal (`selfMember_removed`); a leader waits for
the commit of its own removal instead (`pending_removal`, `removal_of_pending`).
-/

namespace DistDB.OwnChanges

open NodeModel NodeModel.Node MembershipFold Checks

variable {σ : Type} {n : Node σ} {log log' : RaftLog} {v : NodeId} {i j lo hi : ℕ}
  {cs : List (ℕ × ConfChangeCommand)}

/-! ### The changes that are found -/

lemma mem_filterMapM_iff {ε α β : Type} {f : α → Except ε (Option β)} {xs : List α}
    {bs : List β} (h : xs.filterMapM f = .ok bs) (b : β) : b ∈ bs ↔
    ∃ a ∈ xs, f a = .ok (some b) := by
  induction xs generalizing bs with
  | nil =>
    cases h
    simp
  | cons x xs ih =>
    rw [List.filterMapM_cons] at h
    obtain ⟨ob, hob, hrest⟩ := bind_eq_ok.mp h
    cases ob with
    | none => simp [ih hrest, hob]
    | some b' =>
      obtain ⟨bs', hbs', hpure⟩ := bind_eq_ok.mp hrest
      cases hpure
      simp [ih hbs', hob, eq_comm]

lemma filterMapM_sublist {ε α β : Type} {f : α → Except ε (Option β)} {g : β → α}
    (hg : ∀ a b, f a = .ok (some b) → g b = a) {xs : List α} {bs : List β}
    (h : xs.filterMapM f = .ok bs) : (bs.map g).Sublist xs := by
  induction xs generalizing bs with
  | nil =>
    cases h
    exact .slnil
  | cons x xs ih =>
    rw [List.filterMapM_cons] at h
    obtain ⟨ob, hob, hrest⟩ := bind_eq_ok.mp h
    cases ob with
    | none => exact (ih hrest).cons x
    | some b =>
      obtain ⟨bs', hbs', hpure⟩ := bind_eq_ok.mp hrest
      cases hpure
      rw [List.map_cons, hg x b hob]
      exact (ih hbs').cons_cons x

/-- The change that the entry at an index is. -/
def ChangeAt (log : RaftLog) (i : ℕ) (cc : ConfChangeCommand) : Prop :=
  ∃ e, log.get i = some e ∧ tryDecodeConfChange e.command = .ok (some cc)

lemma found_iff {a : ℕ} {b : ℕ × ConfChangeCommand} :
    (match log.get a with
      | none => return none
      | some entry => (Option.map (a, ·)) <$> tryDecodeConfChange entry.command : Except Exception
        (Option (ℕ × ConfChangeCommand))) = .ok (some b) ↔ b.1 = a ∧ ChangeAt log a b.2 := by
  unfold ChangeAt
  cases hget : log.get a with
  | none =>
    constructor
    · intro h
      cases h
    · rintro ⟨-, e, he, -⟩
      cases he
  | some entry =>
    cases hcc : tryDecodeConfChange entry.command with
    | error e =>
      constructor
      · intro h
        simp only [hcc] at h
        cases h
      · rintro ⟨-, e', he, hdecode⟩
        cases he
        rw [hcc] at hdecode
        cases hdecode
    | ok cc =>
      constructor
      · intro h
        simp only [hcc] at h
        cases cc with
        | none => cases h
        | some cc =>
          cases h
          exact ⟨rfl, entry, rfl, hcc⟩
      · rintro ⟨rfl, e', he, hdecode⟩
        cases he
        rw [hcc] at hdecode
        cases hdecode
        simp only [hcc]
        rfl

lemma mem_confChanges_iff (h : confChanges log lo hi = .ok cs) (c : ℕ × ConfChangeCommand) :
    c ∈ cs ↔ lo < c.1 ∧ c.1 ≤ hi ∧ ChangeAt log c.1 c.2 := by
  rw [mem_filterMapM_iff h]
  constructor
  · rintro ⟨a, ha, hfound⟩
    obtain ⟨rfl, hat⟩ := found_iff.mp hfound
    obtain ⟨hlo, hhi⟩ := List.mem_range'_1.mp ha
    exact ⟨hlo, by omega, hat⟩
  · rintro ⟨hlo, hhi, hat⟩
    exact ⟨c.1, List.mem_range'_1.mpr ⟨hlo, by omega⟩, found_iff.mpr ⟨rfl, hat⟩⟩

lemma confChanges_sorted (h : confChanges log lo hi = .ok cs) : cs.Pairwise (·.1 < ·.1) := by
  have hsub := filterMapM_sublist (g := Prod.fst) (fun a b hab => (found_iff.mp hab).1) h
  have hrange : (List.range' (lo + 1) (hi - lo)).Pairwise (· < ·) := List.pairwise_lt_range'
  exact List.pairwise_map.mp (hrange.sublist hsub)

def OwnRemoval (v : NodeId) (cc : ConfChangeCommand) : Prop :=
  cc.type ≠ kAddServer ∧ cc.serverId = v

def OwnAddition (v : NodeId) (cc : ConfChangeCommand) : Prop :=
  cc.type = kAddServer ∧ cc.serverId = v

/-- The entry at the index removes the server. -/
def Removes (log : RaftLog) (v : NodeId) (i : ℕ) : Prop :=
  ∃ cc, ChangeAt log i cc ∧ OwnRemoval v cc

/-- The entry at the index adds the server. -/
def Adds (log : RaftLog) (v : NodeId) (i : ℕ) : Prop :=
  ∃ cc, ChangeAt log i cc ∧ OwnAddition v cc

/-- The entry at the index removes the server, and none behind it adds the server back. -/
def LastRemoval (log : RaftLog) (v : NodeId) (i : ℕ) : Prop :=
  Removes log v i ∧ ∀ j, i < j → ¬ Adds log v j

variable {role : Role} {commitIndex : ℕ} {m : Effective}

lemma selfMember_foldl (h : ∀ c ∈ cs, ¬ OwnAddition v c.2) (hm : m.selfMember = false) :
    (cs.foldl (effectiveStep v role commitIndex) m).selfMember = false := by
  induction cs generalizing m with
  | nil => exact hm
  | cons c cs ih =>
    rw [List.foldl_cons]
    refine ih (fun c' hc' => h c' (by simp [hc'])) ?_
    have hc := h c (by simp)
    unfold OwnAddition at hc
    unfold effectiveStep
    dsimp only
    split_ifs with hadd hself hself' hlead
    · exact absurd ⟨hadd, hself⟩ hc
    · exact hm
    · exact hm
    · rfl
    · exact hm

lemma pending_foldl (h : ∀ c ∈ cs, ¬ OwnAddition v c.2 ∧ ¬ OwnRemoval v c.2) :
    (cs.foldl (effectiveStep v role commitIndex) m).pendingRemoval = m.pendingRemoval := by
  induction cs generalizing m with
  | nil => rfl
  | cons c cs ih =>
    rw [List.foldl_cons, ih fun c' hc' => h c' (by simp [hc'])]
    obtain ⟨hadd, hremove⟩ := h c (by simp)
    unfold OwnAddition at hadd
    unfold OwnRemoval at hremove
    unfold effectiveStep
    dsimp only
    split_ifs with hadd' hself hself' hlead
    · exact absurd ⟨hadd', hself⟩ hadd
    · rfl
    · exact absurd ⟨hadd', hself'⟩ hremove
    · rfl
    · rfl

/-- What a leader waits for: a removal of its own that is not committed, without an addition
behind it. -/
lemma foldl_pending (hsorted : cs.Pairwise (·.1 < ·.1)) (hm : m.pendingRemoval = 0) {p : ℕ}
    (hp : (cs.foldl (effectiveStep v role commitIndex) m).pendingRemoval = p) (hpos : p ≠ 0) :
    role = .kLeader ∧ commitIndex < p ∧ (∃ c ∈ cs, OwnRemoval v c.2 ∧ c.1 = p) ∧
      ∀ c ∈ cs, OwnAddition v c.2 → c.1 ≤ p := by
  induction cs using List.reverseRecOn generalizing p with
  | nil => exact absurd (hp.symm.trans hm) hpos
  | append_singleton cs c ih =>
    obtain ⟨hcs, -, hlast⟩ := List.pairwise_append.mp hsorted
    rw [List.foldl_append, List.foldl_cons, List.foldl_nil] at hp
    have hkept : (cs.foldl (effectiveStep v role commitIndex) m).pendingRemoval = p →
        ¬ OwnAddition v c.2 → role = .kLeader ∧ commitIndex < p ∧
          (∃ c' ∈ cs ++ [c], OwnRemoval v c'.2 ∧ c'.1 = p) ∧
          ∀ c' ∈ cs ++ [c], OwnAddition v c'.2 → c'.1 ≤ p := by
      intro hsame hc
      obtain ⟨hrole, hlt, ⟨c', hc', hremoval⟩, hadds⟩ := ih hcs hsame hpos
      refine ⟨hrole, hlt, ⟨c', by simp [hc'], hremoval⟩, fun c'' hc'' hadd => ?_⟩
      rcases List.mem_append.mp hc'' with hc'' | hc''
      · exact hadds c'' hc'' hadd
      · rw [List.mem_singleton.mp hc''] at hadd
        exact absurd hadd hc
    unfold effectiveStep at hp
    dsimp only at hp
    split_ifs at hp with hadd hself hself' hlead
    · exact absurd hp.symm hpos
    · exact hkept hp fun hc => hself hc.2
    · subst hp
      refine ⟨hlead.1, hlead.2, ⟨c, by simp, ⟨hadd, hself'⟩, rfl⟩, fun c' hc' _ => ?_⟩
      rcases List.mem_append.mp hc' with hc' | hc'
      · exact (hlast c' hc' c (by simp)).le
      · rw [List.mem_singleton.mp hc']
    · exact hkept hp fun hc => hadd hc.1
    · exact hkept hp fun hc => hadd hc.1

lemma exists_split (hcs : confChanges log log.snapshotIndex log.lastIndex = .ok cs)
    {cc : ConfChangeCommand} (hat : ChangeAt log i cc) : ∃ as bs, cs = as ++ (i, cc) :: bs ∧
      ∀ c ∈ bs, i < c.1 ∧ ChangeAt log c.1 c.2 := by
  have hin : log.snapshotIndex < i ∧ i ≤ log.lastIndex := by
    obtain ⟨e, hget, -⟩ := hat
    unfold RaftLog.get at hget
    split_ifs at hget with hout
    omega
  have hmem : (i, cc) ∈ cs := (mem_confChanges_iff hcs _).mpr ⟨hin.1, hin.2, hat⟩
  obtain ⟨as, bs, rfl⟩ := List.append_of_mem hmem
  refine ⟨as, bs, rfl, fun c hc => ⟨?_, ?_⟩⟩
  · have hsorted := (List.pairwise_append.mp (confChanges_sorted hcs)).2.1
    exact (List.pairwise_cons.mp hsorted).1 c hc
  · exact ((mem_confChanges_iff hcs c).mp (by simp [hc])).2.2

/-- **A removed node**: its last change is a removal, and it does not wait for the commit. -/
theorem selfMember_removed (hcs : confChanges n.log n.log.snapshotIndex n.log.lastIndex = .ok cs)
    (h : LastRemoval n.log n.id i) (hacts : n.role = .kLeader → i ≤ n.commitIndex) :
    (n.effective cs).selfMember = false := by
  obtain ⟨⟨cc, hat, hremoval⟩, hadds⟩ := h
  obtain ⟨as, bs, rfl, hbs⟩ := exists_split hcs hat
  unfold effective
  rw [List.foldl_append, List.foldl_cons]
  refine selfMember_foldl (fun c hc hadd => ?_) ?_
  · obtain ⟨hlt, hat'⟩ := hbs c hc
    exact hadds c.1 hlt ⟨c.2, hat', hadd⟩
  · unfold effectiveStep
    dsimp only
    rw [if_neg hremoval.1, if_pos hremoval.2, if_neg]
    rintro ⟨hrole, hlt⟩
    have hle := hacts hrole
    omega

lemma selfMember_outside (hcs : confChanges n.log n.log.snapshotIndex n.log.lastIndex = .ok cs)
    (hbase : n.membershipState.selfIsMember = false) (hadds : ∀ j, ¬ Adds n.log n.id j) :
    (n.effective cs).selfMember = false := by
  refine selfMember_foldl (fun c hc hadd => ?_) hbase
  exact hadds c.1 ⟨c.2, ((mem_confChanges_iff hcs c).mp hc).2.2, hadd⟩

/-- **What a leader waits for**: its removal, when that is not committed and the last of its
changes. -/
theorem pending_removal (hcs : confChanges n.log n.log.snapshotIndex n.log.lastIndex = .ok cs)
    (hrole : n.role = .kLeader) (hlt : n.commitIndex < i) (h : LastRemoval n.log n.id i)
    (honly : ∀ j, i < j → ¬ Removes n.log n.id j) : (n.effective cs).pendingRemoval = i := by
  obtain ⟨⟨cc, hat, hremoval⟩, hadds⟩ := h
  obtain ⟨as, bs, rfl, hbs⟩ := exists_split hcs hat
  unfold effective
  rw [List.foldl_append, List.foldl_cons, pending_foldl]
  · unfold effectiveStep
    dsimp only
    rw [if_neg hremoval.1, if_pos hremoval.2, if_pos ⟨hrole, hlt⟩]
  · intro c hc
    obtain ⟨hlt', hat'⟩ := hbs c hc
    exact ⟨fun hadd => hadds c.1 hlt' ⟨c.2, hat', hadd⟩,
      fun hremove => honly c.1 hlt' ⟨c.2, hat', hremove⟩⟩

/-- A leader waits for nothing else. -/
theorem removal_of_pending
    (hcs : confChanges n.log n.log.snapshotIndex n.log.lastIndex = .ok cs) {p : ℕ}
    (hp : (n.effective cs).pendingRemoval = p) (hpos : p ≠ 0) :
    n.commitIndex < p ∧ LastRemoval n.log n.id p := by
  obtain ⟨-, hlt, ⟨c, hc, hremoval, rfl⟩, hadds⟩ :=
    foldl_pending (confChanges_sorted hcs) rfl hp hpos
  refine ⟨hlt, ⟨c.2, ((mem_confChanges_iff hcs c).mp hc).2.2, hremoval⟩, ?_⟩
  rintro j hj ⟨cc, hat, hadd⟩
  obtain ⟨as, bs, rfl, -⟩ := exists_split hcs hat
  have hle := hadds (j, cc) (by simp) hadd
  dsimp only at hle
  omega

end DistDB.OwnChanges
