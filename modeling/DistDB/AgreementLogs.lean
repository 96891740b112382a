import DistDB.AgreementSteps

/-!
What a node does to its log, as steps of the agreement: it takes the entries of a request, it
adopts a snapshot, and a leader proposes.

In each case the whole log of the node becomes the one of the agreement: the entries of the
leader, or what the snapshot covers, are merged into it.
-/

namespace DistDB.Agreement

open NodeModel NodeModel.Node Consensus Config FullLog TermLog Checks

variable {σ : Type} {base : Finset NodeId} {cb : Callbacks σ} {Q : History → σ → Prop}
  {a a' : History} {v : NodeId} {l : List LogEntry} {n n' : Node σ}

lemma Proper.of_isPrefix {m : List LogEntry} (h : Proper m) (hl : l <+: m) : Proper l where
  indexed := by
    rw [← List.prefix_iff_eq_take.mp hl |>.symm]
    exact h.indexed.take _
  decodable := fun e he => h.decodable e (hl.subset he)

lemma Proper.merge {m : List LogEntry} (hl : Proper l) (hm : Proper m) : Proper (merge l m) := by
  unfold TermLog.merge
  split
  · exact hl
  · exact hm

namespace Server

lemma proper_log (h : Server base Q a v l n) : Proper l :=
  let ⟨_, _, hs⟩ := h.agrees.sound
  ⟨hs.holds.indexed, hs.decodable⟩

lemma rooted (h : Server base Q a v l n) (hinv : Inv base a) : Rooted a.lead l :=
  h.log ▸ hinv.log_rooted v

lemma entries_taken (h : Server base Q a v l n) (hinv : Inv base a) {E : Election NodeId LogEntry}
    {m : List LogEntry} {prev : ℕ} {log : RaftLog} (hE : a.election n.state.currentTerm = some E)
    (hm : m <+: a.lead n.state.currentTerm) (hprev : prev ≤ m.length)
    (hsome : n.log.appendEntriesFrom prev (termOf m prev) (m.drop prev) = some log) :
    Holds log (merge l m) ∧ log.snapshotIndex = n.log.snapshotIndex ∧
      log.appliedIndex = n.log.appliedIndex ∧ (m.drop prev = [] → l = [] → m = []) := by
  have hmroot : Rooted a.lead m := (hinv.lead_rooted _).of_isPrefix hm
  have hmatch : Matches l m := (h.rooted hinv).matches hmroot
  obtain ⟨rfl, hcheck⟩ := h.agrees.holds.appendEntriesFrom_some
    (fun hpos => hinv.termOf_pos hmroot hpos hprev) hsome
  have htake : l.take prev = m.take prev := by
    rcases hcheck with rfl | ⟨-, hle, hterm⟩
    · simp
    · exact hmatch prev hle hprev hterm
  have hcovered := (h.agrees.committed.le h.agrees.compacted).lead hinv hE
  have hsnap : ∀ j, j ≤ n.log.snapshotIndex → j ≤ m.length → l.take j = m.take j := by
    intro j hj hjm
    have hle := h.agrees.holds.snapshot_le
    rw [← take_eq_of_isPrefix hm hjm, take_eq_of_isPrefix hcovered (by simp; omega),
      List.take_take, Nat.min_eq_left hj]
  obtain ⟨hindex, hholds⟩ := h.agrees.holds.putAll_merge
    ((h.proper _).of_isPrefix hm).indexed hmatch hsnap hprev htake
  refine ⟨hholds, hindex, RaftLog.appliedIndex_putAll .., fun hnil hl => ?_⟩
  have hlen := List.drop_eq_nil_iff.mp hnil
  have hpl := take_of_prefix_eq hprev htake
  rw [hl] at hpl
  simp only [List.length_nil] at hpl
  exact List.eq_nil_of_length_eq_zero (by omega)

/-- **Entries**: a follower merges a part of the leader's log into its own, and holds it. -/
theorem takeEntries (h : Server base Q a v l n) (hw : Watches base cb Q) (hinv : Inv base a)
    (hrole : n.role = .kFollower) {E : Election NodeId LogEntry} {m : List LogEntry} {prev : ℕ}
    {log : RaftLog} (hE : a.election n.state.currentTerm = some E) (hother : E.winner ≠ v)
    (hm : m <+: a.lead n.state.currentTerm) (hprev : prev ≤ m.length)
    (hsome : n.log.appendEntriesFrom prev (termOf m prev) (m.drop prev) = some log)
    (hjoin : Sound base v l n ∨ m.drop prev = []) :
    ∃ a', Does base Q a a' v (merge l m) (n.withLog log) ∧ a'.lead = a.lead ∧
      (∀ j ≤ m.length, a'.ack v n.state.currentTerm j) ∧
      l.take n.log.snapshotIndex ++ log.entries = merge l m := by
  obtain ⟨hholds, hindex, happlied, hempty⟩ := h.entries_taken hinv hE hm hprev hsome
  have hcommitted := h.agrees.committed.merge hinv hE hm
  have hcovered := (h.agrees.committed.le h.agrees.compacted).merge hinv hE hm
  have hstart : (merge l m).take n.log.snapshotIndex = l.take n.log.snapshotIndex := by
    have hpre := prefix_merge_of_total (List.take_prefix n.log.snapshotIndex l)
      (prefix_total ((h.agrees.committed.le h.agrees.compacted).lead hinv hE) hm)
    have hle := h.agrees.holds.snapshot_le
    rw [take_eq_of_isPrefix hpre (by simp; omega), List.take_take, Nat.min_self]
  -- first the log is replaced, then what it has of the leader's is held for good
  have hreplace : Goes base v a (a.setLog v (merge (a.log v) m)) :=
    .replace (E := E) (by rw [h.term]; exact hE) hother (by rw [h.term]; exact hm)
  have hinv' := hinv.steps hreplace.steps
  have hlog' : (a.setLog v (merge (a.log v) m)).log v = merge l m := by
    show Function.update a.log v _ v = _
    rw [Function.update_self, h.log]
  have hhold : Goes base v (a.setLog v (merge (a.log v) m))
      ((a.setLog v (merge (a.log v) m)).hold v m.length) := by
    refine .hold ?_ ?_ ?_
    · show (a.election (a.term v)).isSome
      rw [h.term, hE]
      rfl
    · show m.length ≤ (a.lead (a.term v)).length
      rw [h.term]
      exact hm.length_le
    · rw [hlog']
      show (a.lead (a.term v)).take m.length <+: _
      rw [h.term, take_eq_of_isPrefix hm le_rfl, List.take_length]
      exact prefix_merge l m
  have hgoes := hreplace.trans hhold
  refine ⟨_, ⟨hgoes, ⟨?_, h.term, hlog', h.kept, h.proper⟩, .inl⟩, rfl,
    fun j hj => ?_, ?_⟩
  · obtain ⟨b, hb, hs⟩ : ∃ b, (b = base ∨ (b = ∅ ∧ l = [] ∧ m.drop prev = [])) ∧
      Sound b v l n := by
      obtain ⟨b, rfl | ⟨hnone, hnil, -⟩, hs⟩ := h.agrees.sound
      · exact ⟨b, .inl rfl, hs⟩
      · rcases hjoin with hbase | hdrop
        · exact ⟨base, .inl rfl, hbase⟩
        · exact ⟨b, .inr ⟨hnone, hnil, hdrop⟩, hs⟩
    refine Agrees.of_follower hrole ⟨b, ?_, ?_⟩ (hcommitted.mono hinv hgoes le_rfl)
      ⟨h.agrees.noted.next, h.agrees.noted.matched, h.agrees.noted.all⟩
      (hw.goes hinv hgoes h.agrees.machine)
    · refine hb.imp_right fun ⟨hnone, hnil, hdrop⟩ => ⟨hnone, ?_, hrole⟩
      rw [hempty hdrop hnil, hnil]
      rfl
    · exact {
        id := hs.id
        holds := hholds
        decodable := (h.proper_log.merge ((h.proper _).of_isPrefix hm)).decodable
        stored := by
          show Stored v n (config b ((merge l m).take log.snapshotIndex))
          rw [hindex, hstart]
          exact hs.stored
        compacted := hindex.le.trans hs.compacted
        saved := happlied.trans hs.saved
        applied := hs.applied
        committed := hcommitted.1 }
  · exact .inr ⟨rfl, h.term.symm, hj⟩
  · rw [hholds.entries, hindex, ← hstart, List.take_append_drop]

/-! ### Snapshots -/

lemma covered_lead {u : ℕ} {c : List LogEntry} (hc : Committed a u c c.length) (hpos : c ≠ []) :
    ∃ t k m, a.commit t k m ∧ t ≤ u ∧ c <+: (a.lead t).take k := by
  obtain ⟨-, hzero | ⟨t, k, m, hcommit, ht, hpre⟩⟩ := hc
  · exact absurd (List.eq_nil_of_length_eq_zero hzero) hpos
  · rw [List.take_length] at hpre
    exact ⟨t, k, m, hcommit, ht, hpre⟩

/-- The log behind a snapshot: the rest is kept where it goes on from what is covered. -/
lemma holds_adopted (h : Server base Q a v l n) (hinv : Inv base a) {c : List LogEntry}
    (hc : Rooted a.lead c) (hindexed : Indexed c) (hlt : n.log.snapshotIndex < c.length) :
    Holds (n.log.compactTo c.length (termOf c c.length)) (merge l c) ∧
    (n.log.compactTo c.length (termOf c c.length)).snapshotIndex = c.length ∧
    (n.log.compactTo c.length (termOf c c.length)).appliedIndex = n.log.appliedIndex := by
  have hmatch : Matches l c := (h.rooted hinv).matches hc
  have hcompact := h.agrees.holds.compactTo hindexed hlt
  refine ⟨?_, ?_, ?_⟩
  · by_cases hpre : c <+: l
    · have hterm := termOf_of_isPrefix hpre le_rfl
      rw [if_pos ⟨hpre.length_le, hterm⟩] at hcompact
      obtain ⟨r, rfl⟩ := hpre
      rwa [List.drop_left, ← merge_of_isPrefix (List.prefix_append c r)] at hcompact
    · rw [if_neg] at hcompact
      · rwa [merge_of_not_isPrefix hpre]
      · rintro ⟨hle, hterm⟩
        refine hpre ?_
        have htake := hmatch _ hle le_rfl hterm
        rw [List.take_length] at htake
        exact htake ▸ List.take_prefix _ l
  · unfold RaftLog.compactTo
    rw [if_neg (by omega)]
  · unfold RaftLog.compactTo
    rw [if_neg (by omega)]

lemma committed_merge (h : Server base Q a v l n) (hinv : Inv base a) {c : List LogEntry} {u : ℕ}
    (hc : Committed a u c c.length) (hu : u ≤ n.state.currentTerm) :
    Committed a n.state.currentTerm (merge l c) (max c.length n.commitIndex) := by
  have hlift : Committed a n.state.currentTerm c c.length := hc.mono hinv (.refl (x := v) a) hu
  rcases Nat.le_total n.commitIndex c.length with hle | hle
  · rw [Nat.max_eq_left hle]
    refine hlift.congr ?_
    rw [List.take_length]
    exact prefix_merge l c
  · rw [Nat.max_eq_right hle]
    refine h.agrees.committed.congr (prefix_merge_of_total (List.take_prefix _ _) ?_)
    have htotal := h.agrees.committed.total hinv hlift
    rwa [List.take_length] at htotal

lemma log_adopted (h : Server base Q a v l n) (hinv : Inv base a) {req : InstallSnapshotRequest}
    {c : List LogEntry} (hroot : Rooted a.lead c) (hindexed : Indexed c)
    (hlen : c.length = req.lastIncludedIndex) (hterm : termOf c c.length = req.lastIncludedTerm)
    (hlt : n.log.snapshotIndex < req.lastIncludedIndex) :
    (n.adopted req).log.snapshotIndex = c.length ∧ Holds (n.adopted req).log (merge l c) ∧
      (n.adopted req).log.appliedIndex = max req.lastIncludedIndex n.lastApplied := by
  obtain ⟨hholds, hindex, happlied⟩ := h.holds_adopted hinv hroot hindexed (hlen ▸ hlt)
  obtain ⟨_, -, hs⟩ := h.agrees.sound
  have hsaved := hs.saved
  rw [adopted_log, ← hlen, ← hterm]
  split
  · exact ⟨hindex, hholds.setAppliedIndex _, by simp; omega⟩
  · refine ⟨hindex, hholds, ?_⟩
    rw [happlied]
    omega

lemma sound_adopted (h : Server base Q a v l n) (hinv : Inv base a) {req : InstallSnapshotRequest}
    {c : List LogEntry} (hroot : Rooted a.lead c) (hproper : Proper c)
    (hlen : c.length = req.lastIncludedIndex) (hterm : termOf c c.length = req.lastIncludedTerm)
    (hmembers : req.membership.keys = config base c)
    (hlt : n.log.snapshotIndex < req.lastIncludedIndex)
    (hcommitted : max req.lastIncludedIndex n.commitIndex ≤ (merge l c).length) :
    Sound base v (merge l c) (n.adopted req) := by
  obtain ⟨hindex, hholds, happlied⟩ := h.log_adopted hinv hroot hproper.indexed hlen hterm hlt
  have hstart : (merge l c).take c.length = c := by
    rw [take_eq_of_isPrefix (prefix_merge l c) le_rfl, List.take_length]
  exact {
    id := h.agrees.id
    holds := hholds
    decodable := (h.proper_log.merge hproper).decodable
    stored := by
      rw [hindex, hstart]
      refine ⟨?_, ?_⟩
      · show (req.membership.erase n.id).keys = _
        rw [OrdMap.keys_erase, hmembers, h.agrees.id]
      · show (req.membership.find n.id).isSome = true ↔ _
        rw [← OrdMap.mem_keys, hmembers, h.agrees.id]
    compacted := by
      rw [hindex, hlen]
      exact le_max_left _ _
    saved := happlied
    applied := by
      show max _ n.lastApplied = max _ n.commitIndex
      rw [h.agrees.applied]
    committed := hcommitted }

lemma stands_adopted (h : Server base Q a v l n) (hinv : Inv base a) {c : List LogEntry}
    {t k m : ℕ} (hcommit : a.commit t k m) (ht : t < n.state.currentTerm)
    (hpre : c <+: (a.lead t).take k) (hrole : n.role = .kCandidate)
    (hsame : config base (merge l c) = config base l)
    (hgoes : Goes base v a (a.setLog v (merge (a.log v) c))) :
    Stands base (a.setLog v (merge (a.log v) c)) v (merge l c) n := by
  obtain ⟨hmember, ⟨b, hballot, hballoted, hb⟩, hfresh⟩ := h.agrees.stands hrole
  refine ⟨hsame ▸ hmember, ⟨b, hballot, hballoted.trans hsame.symm, ?_⟩, hfresh⟩
  by_cases hcl : c <+: l
  · rw [merge_of_isPrefix hcl]
    exact hb.imp_right fun hlacks => hlacks.mono hinv hgoes
  · refine .inr ?_
    rcases hb with rfl | hlacks
    · exact ⟨t, k, m, hcommit, ht, fun hall => hcl (hpre.trans hall)⟩
    · exact hlacks.mono hinv hgoes

lemma leads_adopted (h : Server base Q a v l n) (req : InstallSnapshotRequest) {c : List LogEntry}
    (hrole : n.role = .kLeader) :
    Leads base (a.setLog v c) v l (n.adopted req).refreshMembership.1 := by
  have hstate : (n.adopted req).refreshMembership.1.state = n.state := by simp
  obtain ⟨hwon, hcounted, hacked, hnext⟩ := h.agrees.leads hrole
  refine ⟨?_, ?_, fun p i hp j hj hji => ?_, fun p i hp => ?_⟩
  · rw [hstate]
    exact hwon
  · rw [hstate]
    exact hcounted
  · rw [hstate]
    rcases (n.adopted req).find_refreshMembership.2 hp with rfl | hold
    · omega
    · exact hacked p i hold j hj hji
  · rcases (n.adopted req).find_refreshMembership.1 hp with rfl | hold
    · omega
    · exact hnext p i hold

/-- **Snapshots**: a node merges what the snapshot covers into its log. A candidate either has
that already or knows the same members. -/
theorem adopt (h : Server base Q a v l n) (hw : Watches base cb Q) (hinv : Inv base a)
    {req : InstallSnapshotRequest} {c : List LogEntry} {u : ℕ}
    (hlen : c.length = req.lastIncludedIndex)
    (hterm : termOf c c.length = req.lastIncludedTerm) (hc : Committed a u c c.length)
    (hu : u ≤ n.state.currentTerm) (hlow : n.role ≠ .kFollower → u < n.state.currentTerm)
    (hmembers : req.membership.keys = config base c)
    (hlt : n.log.snapshotIndex < req.lastIncludedIndex)
    (hcandidate : n.role = .kCandidate → c <+: l ∨
      req.membership.keys = insert v n.peers.keys) :
    ∃ a', Does base Q a a' v (merge l c) (n.adopted req).refreshMembership.1 ∧
      (n.adopted req).log.snapshotIndex = req.lastIncludedIndex ∧
      c ++ (n.adopted req).log.entries = merge l c ∧
      (n.role = .kCandidate → config base (merge l c) = config base l) := by
  have hne : c ≠ [] := by
    rintro rfl
    simp only [List.length_nil] at hlen
    omega
  obtain ⟨t, k, m, hcommit, ht, hpre⟩ := covered_lead hc hne
  have hproper : Proper c := (h.proper t).of_isPrefix (hpre.trans (List.take_prefix _ _))
  have hroot : Rooted a.lead c :=
    (hinv.lead_rooted t).of_isPrefix (hpre.trans (List.take_prefix _ _))
  have hgoes : Goes base v a (a.setLog v (merge (a.log v) c)) :=
    .adopt hcommit (by rw [h.term]; exact ht.trans hu) hpre
  have hcommitted : Committed a n.state.currentTerm (merge l c)
      (max req.lastIncludedIndex n.commitIndex) := hlen ▸ h.committed_merge hinv hc hu
  obtain ⟨hindex, hholds, -⟩ := h.log_adopted hinv hroot hproper.indexed hlen hterm hlt
  have hsound := h.sound_adopted hinv hroot hproper hlen hterm hmembers hlt hcommitted.1
  have hstate : (n.adopted req).refreshMembership.1.state = n.state := by simp
  have hrole' : (n.adopted req).refreshMembership.1.role = n.role := by simp
  have hconfig : n.role = .kCandidate → config base (merge l c) = config base l := by
    intro hrole
    by_cases hcl : c <+: l
    · rw [merge_of_isPrefix hcl]
    · rw [merge_of_not_isPrefix hcl, ← hmembers, (hcandidate hrole).resolve_left hcl]
      exact (h.agrees.knows (by rw [hrole]; decide)).ids (h.agrees.stands hrole).member
  -- the rest of the log is kept, or the node was no leader
  have hleader : n.role = .kLeader → c <+: l := by
    intro hrole
    obtain ⟨E, hE, -, hlead⟩ := h.leading hinv hrole
    rw [hlead]
    exact hpre.trans (hinv.prefix_lead hcommit hE (ht.trans hu))
  refine ⟨_, ⟨hgoes, ⟨?_, ?_, ?_, ?_, h.proper⟩, .inl⟩, hindex.trans hlen, ?_, hconfig⟩
  · exact {
      sound := ⟨base, .inl rfl, hsound.refreshMembership⟩
      committed := by
        rw [hstate, refreshMembership_commitIndex]
        exact hcommitted.mono hinv hgoes le_rfl
      noted := Noted.refreshMembership (n := n.adopted req)
        ⟨h.agrees.noted.next, h.agrees.noted.matched, h.agrees.noted.all⟩
      knows := fun _ => hsound.knows
      stands := fun hrole => by
        rw [hrole'] at hrole
        obtain ⟨hmember, hballot, hfresh⟩ := h.stands_adopted hinv hcommit
          (ht.trans_lt (hlow (by rw [hrole]; decide))) hpre hrole (hconfig hrole) hgoes
        exact ⟨hmember, by rwa [hstate], by rwa [hstate]⟩
      leads := fun hrole => by
        rw [hrole'] at hrole
        have hkept := hleader hrole
        rw [merge_of_isPrefix hkept]
        exact h.leads_adopted req hrole
      machine := by
        rw [refreshMembership_machine]
        exact hw.goes hinv hgoes h.agrees.machine }
  · rw [hstate]
    exact h.term
  · show Function.update a.log v _ v = _
    rw [Function.update_self, h.log]
  · rw [hstate]
    exact h.kept
  · rw [hholds.entries, hindex]
    nth_rewrite 1 [← List.take_length (l := c), ← take_eq_of_isPrefix (prefix_merge l c) le_rfl]
    exact List.take_append_drop _ _

/-! ### Proposals -/

lemma refusal_none {command : Bytes} (h : n.refusal command = .ok none) :
    ∃ cc, tryDecodeConfChange command = .ok cc ∧
      (cc.isSome → confChanges n.log n.commitIndex n.log.lastIndex = .ok []) := by
  unfold refusal at h
  split at h
  · cases h
  · obtain ⟨cc, hcc, hrest⟩ := bind_eq_ok.mp h
    refine ⟨cc, hcc, fun hsome => ?_⟩
    obtain ⟨cc, rfl⟩ := Option.isSome_iff_exists.mp hsome
    obtain ⟨error, herror, hnone⟩ := bind_eq_ok.mp hrest
    unfold checkConfChange at herror
    obtain ⟨pending, hpending, hrest⟩ := bind_eq_ok.mp herror
    by_cases hnil : pending = []
    · rw [hpending, hnil]
    · rw [if_pos hnil] at hrest
      cases hrest
      cases hnone

lemma committed_change (h : Server base Q a v l n) (hinv : Inv base a) (hrole : n.role = .kLeader)
    (hplain : confChanges n.log n.commitIndex n.log.lastIndex = .ok [])
    (hown : n.log.termAt n.commitIndex = n.state.currentTerm) :
    ∃ k m, a.commit n.state.currentTerm k m ∧
      ∀ (j : ℕ) e, k ≤ j → (a.lead n.state.currentTerm)[j]? = some e →
        change e = none := by
  obtain ⟨t, ht⟩ : ∃ t, n.state.currentTerm = t := ⟨_, rfl⟩
  obtain ⟨E, hE, -, hlead⟩ := h.leading hinv hrole
  have hsound := h.agrees.sound_base (by rw [hrole]; decide)
  have hcommitted := h.agrees.committed
  rw [ht] at hE hlead hcommitted hown ⊢
  rw [confChanges_eq h.agrees.holds hsound.decodable_log h.agrees.compacted,
    h.agrees.holds.lastIndex, List.take_of_length_le (by simp)] at hplain
  have hplain := changesOf_eq_nil.mp (Except.ok.inj hplain)
  rw [h.agrees.holds.termAt h.agrees.compacted] at hown
  have hpos := hinv.election_pos hE
  obtain ⟨hle, hzero | ⟨t', k, m, hcommit, ht', hpre⟩⟩ := hcommitted
  · rw [hzero, termOf_zero] at hown
    omega
  · have hlen := hpre.length_le
    have hci : termOf (a.lead t') n.commitIndex = t := by
      have hwhole := hpre.trans (List.take_prefix _ _)
      rw [termOf_of_isPrefix hwhole (by simp; omega), termOf_take le_rfl, hown]
    obtain rfl : t' = t := le_antisymm ht' (hci ▸ hinv.lead_term t' _)
    refine ⟨k, m, hcommit, fun j e' hj he' => hplain e' ?_⟩
    rw [← hlead] at he'
    simp only [List.length_take] at hlen
    refine List.mem_of_getElem? (i := j - n.commitIndex) ?_
    rw [List.getElem?_drop, show n.commitIndex + (j - n.commitIndex) = j by omega]
    exact he'

lemma sound_proposed (hsound : Sound base v l n) {term : ℕ} {command : Bytes}
    (hdecodes : Succeeds (tryDecodeConfChange command)) :
    Sound base v (l ++ [⟨l.length + 1, term, command⟩])
      (n.withLog (n.log.append term command).1) where
  id := hsound.id
  holds := hsound.holds.append term command
  decodable := fun e' he' => by
    rcases List.mem_append.mp he' with hold | hlast
    · exact hsound.decodable e' hold
    · rw [List.mem_singleton.mp hlast]
      exact hdecodes
  stored := by
    show Stored v n (config base ((l ++ [_]).take n.log.snapshotIndex))
    rw [List.take_append_of_le_length hsound.holds.snapshot_le]
    exact hsound.stored
  compacted := hsound.compacted
  saved := hsound.saved
  applied := hsound.applied
  committed := hsound.committed.trans (by simp)

lemma counted_proposed {t : ℕ} {e : LogEntry} (hcounted : v ∈ config base l ∨ Removed v t l)
    (hterm : e.term = t) (hmember : (change e).isSome → v ∈ config base l) :
    v ∈ config base (l ++ [e]) ∨ Removed v t (l ++ [e]) := by
  rw [config_concat]
  cases hx : change e with
  | none =>
    refine hcounted.imp id fun hremoved => ?_
    obtain ⟨i, e₀, he₀, hremove, hterm₀, hlast⟩ := hremoved
    refine ⟨i, e₀, ?_, hremove, hterm₀, fun j e' hij he' => ?_⟩
    · rw [List.getElem?_append_left (List.getElem?_eq_some_iff.mp he₀).1]
      exact he₀
    · rcases Nat.lt_or_ge j l.length with hj | hj
      · rw [List.getElem?_append_left hj] at he'
        exact hlast j e' hij he'
      · rw [List.getElem?_append_right hj] at he'
        rw [List.mem_singleton.mp (List.mem_of_getElem? he')]
        exact hx
  | some c =>
    have hin := hmember (by rw [hx]; rfl)
    show v ∈ c.apply _ ∨ _
    by_cases hstays : v ∈ c.apply (config base l)
    · exact .inl hstays
    · -- a change that drops the leader itself
      have hremove : c = .remove v := by
        cases c with
        | add y => exact absurd (Finset.mem_insert_of_mem hin) hstays
        | remove y =>
          by_contra hne
          refine hstays (Finset.mem_erase.mpr ⟨?_, hin⟩)
          rintro rfl
          exact hne rfl
      refine .inr ⟨l.length, e, by simp, hx.trans (congrArg some hremove), hterm,
        fun j e' hj he' => ?_⟩
      rw [List.getElem?_eq_none (by simp; omega)] at he'
      cases he'

/-- **Proposals**: a leader appends an entry of its term. A change of the members needs that
it has committed something of its term, and that it has not removed itself. -/
theorem propose (h : Server base Q a v l n) (hw : Watches base cb Q) (hinv : Inv base a)
    (hrole : n.role = .kLeader) {command : Bytes} (hrefusal : n.refusal command = .ok none)
    (hchange : ∀ cc, tryDecodeConfChange command = .ok (some cc) →
      n.log.termAt n.commitIndex = n.state.currentTerm ∧ n.selfIsMember = true ∧
        n.pendingSelfRemovalIndex = 0) :
    ∃ a', Does base Q a a' v (l ++ [⟨l.length + 1, n.state.currentTerm, command⟩])
        (n.withLog (n.log.append n.state.currentTerm command).1).refreshMembership.1 ∧
      a'.lead n.state.currentTerm = l ++ [⟨l.length + 1, n.state.currentTerm, command⟩] := by
  obtain ⟨t, ht⟩ : ∃ t, n.state.currentTerm = t := ⟨_, rfl⟩
  obtain ⟨cc, hcc, hpending⟩ := refusal_none hrefusal
  have hsound := h.agrees.sound_base (by rw [hrole]; decide)
  have hknows := h.agrees.knows (by rw [hrole]; decide)
  have hcommits := h.committed_change hinv hrole
  obtain ⟨E, hE, hwinner, hlead⟩ := h.leading hinv hrole
  obtain ⟨-, hcounted, hacked, hnext⟩ := h.agrees.leads hrole
  have hcommitted := h.agrees.committed
  have hterm := h.term
  rw [ht] at hE hlead hcounted hacked hcommitted hterm hchange hcommits ⊢
  obtain ⟨e, he⟩ : ∃ e : LogEntry, e = ⟨l.length + 1, t, command⟩ := ⟨_, rfl⟩
  -- the command is a change, so that it has been checked
  have hdecoded : (change e).isSome → ∃ c, cc = some c := fun hsome => by
    rw [change_eq, he, Option.isSome_map] at hsome
    unfold confChange at hsome
    rw [hcc] at hsome
    exact Option.isSome_iff_exists.mp hsome
  have hgoes : Goes base v a (a.propose v e) := by
    refine .propose (E := E) (hterm ▸ hE) hwinner (by rw [he, hterm]; rfl) fun hsome => ?_
    obtain ⟨c, rfl⟩ := hdecoded hsome
    rw [hterm]
    exact hcommits (hpending rfl) (hchange c hcc).1
  have hnew : Sound base v (l ++ [e]) (n.withLog (n.log.append t command).1) :=
    he ▸ sound_proposed hsound ⟨cc, hcc⟩
  have hstate : (n.withLog (n.log.append t command).1).refreshMembership.1.state = n.state := by
    simp
  have hrole' : (n.withLog (n.log.append t command).1).refreshMembership.1.role = .kLeader := by
    simp [hrole]
  rw [← he]
  have hlead' : (a.propose v e).lead t = l ++ [e] := by
    rw [St.propose, hterm]
    dsimp only
    rw [Function.update_self, ← hlead]
  refine ⟨_, ⟨hgoes, ⟨?_, ?_, ?_, ?_, fun u => ?_⟩, .inl⟩, hlead'⟩
  · exact {
      sound := ⟨base, .inl rfl, hnew.refreshMembership⟩
      committed := by
        rw [hstate, ht, refreshMembership_commitIndex]
        refine (hcommitted.congr ?_).mono hinv hgoes le_rfl
        exact (List.take_prefix _ _).trans (List.prefix_append _ _)
      noted := Noted.refreshMembership (n := n.withLog (n.log.append t command).1)
        ⟨h.agrees.noted.next, h.agrees.noted.matched, h.agrees.noted.all⟩
      knows := fun _ => hnew.knows
      stands := fun hcandidate => by
        rw [hrole'] at hcandidate
        cases hcandidate
      leads := fun _ => by
        refine ⟨⟨E, ?_, hwinner⟩, ?_, fun p i hp j hj hji => ?_, fun p i hp => ?_⟩
        · rw [hstate, ht]
          exact hE
        · rw [hstate, ht]
          refine counted_proposed hcounted (by rw [he]) fun hsome => ?_
          obtain ⟨c, rfl⟩ := hdecoded hsome
          exact hknows.self.mp (hchange c hcc).2
        · rw [hstate, ht]
          rcases find_refreshMembership _ |>.2 hp with rfl | hold
          · omega
          · exact hgoes.ack (hacked p i hold j hj hji)
        · rcases find_refreshMembership _ |>.1 hp with rfl | hold
          · omega
          · have := hnext p i hold
            simp only [List.length_append, List.length_singleton]
            omega
      machine := by
        rw [refreshMembership_machine]
        exact hw.goes hinv hgoes h.agrees.machine }
  · rw [hstate, ht]
    exact hterm
  · rw [St.propose]
    dsimp only
    rw [Function.update_self, h.log]
  · rw [hstate]
    exact h.kept
  · by_cases hu : u = t
    · subst hu
      rw [hlead']
      exact ⟨hnew.holds.indexed, hnew.decodable⟩
    · rw [St.propose, hterm]
      dsimp only
      rw [Function.update_of_ne hu]
      exact h.proper u

end Server

end DistDB.Agreement
