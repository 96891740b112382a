import DistDB.Exchange

/-!
Replication to a follower converges.

The next index of a follower moves down by one when it refuses the entries, and up when it
answers a snapshot. A leader that starts above what the follower has committed stays above it,
or has seen the follower take its log (`Phase`); so it goes down at most once, and what follows
a snapshot is taken (`Fits`). Both are counted in one bound (`Within`).
-/

namespace DistDB.Convergence

open NodeModel NodeModel.Node NodeCrash FullLog TermLog Exchange Checks

variable {σ : Type} {cb : Callbacks σ} {l l' m : List LogEntry} {n f f' : Node σ}
  {peer : NodeId} {now next matched boundary applied term k p : ℕ} {fate : Fate}

/-- The logs have the same terms between two indices. -/
def Equal (l m : List LogEntry) (lo hi : ℕ) : Prop :=
  ∀ i, lo ≤ i → i ≤ hi → termOf l i = termOf m i

/-- The leader's next index for the follower, while it looks for where their logs part. The
leader has compacted up to `boundary` and applied up to `applied`. -/
inductive Phase (l m : List LogEntry) (boundary applied : ℕ) (f : Node σ) (next : ℕ) : Prop
  /-- It is above all that the follower has committed. -/
  | above (hlt : f.commitIndex < next)
      (heq : Equal l m f.log.snapshotIndex f.commitIndex)
  /-- The follower needs the snapshot. -/
  | below (hle : next ≤ boundary) (hcommit : f.commitIndex ≤ applied)
      (heq : Equal l m f.log.snapshotIndex f.commitIndex)
  /-- The follower has taken the log, but its answer was lost. It may have compacted since. -/
  | taken (heq : Equal l m (max f.log.snapshotIndex (next - 1)) m.length)
      (hcommit : f.commitIndex < next ∨ f.commitIndex ≤ applied)

/-- The follower takes what the leader sends behind this index. -/
structure Fits (l m : List LogEntry) (applied : ℕ) (f : Node σ) (p : ℕ) : Prop where
  applied_le : applied ≤ p
  le_length : p ≤ m.length
  commit_le : f.commitIndex ≤ p
  term : termOf l p = termOf m p

/-- How many answers are left until the leader knows that the follower has its log. -/
inductive Within (l m : List LogEntry) (boundary applied : ℕ) (f : Node σ) (next matched : ℕ) :
    ℕ → Prop
  | done {k : ℕ} (hnext : next = m.length + 1) (hmatched : matched = m.length)
      (h : Fits l m applied f m.length) : Within l m boundary applied f next matched k
  | fits {k p : ℕ} (hnext : next = p + 1) (h : Fits l m applied f p) :
      Within l m boundary applied f next matched (k + 1)
  | searches {k : ℕ} (hk : next + 2 ≤ k) (h : Phase l m boundary applied f next) :
      Within l m boundary applied f next matched k

/-- The leader's notes and the follower, with so many answers left. -/
structure Tracks (m : List LogEntry) (peer : NodeId) (term k : ℕ) (s : Pair σ) : Prop where
  leads : Leads m peer s.leader
  term_eq : s.leader.state.currentTerm = term
  commit_le : s.follower.commitIndex ≤ m.length
  within : ∃ l next matched, Hears l s.leader.state.currentTerm s.follower ∧
    s.leader.nextIndex.find peer = some next ∧ s.leader.matchIndex.find peer = some matched ∧
    next ≤ m.length + 1 ∧ matched ≤ m.length ∧
    Within l m s.leader.log.snapshotIndex s.leader.lastApplied s.follower next matched k

section

variable (hn : Leads m peer n) (hf : Hears l n.state.currentTerm f)
  (hnext : n.nextIndex.find peer = some next)
include hn hf hnext

lemma append_round (hcommit : f.commitIndex ≤ m.length)
    (hmatched : n.matchIndex.find peer = some matched) (hle : matched ≤ m.length)
    (hlast : next ≤ m.length + 1) (hlt : n.log.snapshotIndex < next) :
    round cb peer ⟨n, f⟩ now fate = (⟨n, f⟩, false) ∨
    (1 < next ∧
      ¬ (f.log.snapshotIndex ≤ next - 1 ∧ termOf l (next - 1) = termOf m (next - 1)) ∧
      ∃ f', f'.log = f.log ∧ f'.commitIndex = f.commitIndex ∧
        Hears l n.state.currentTerm f' ∧
        (round cb peer ⟨n, f⟩ now fate = (⟨n, f'⟩, false) ∨
          round cb peer ⟨n, f⟩ now fate =
            (⟨{ n with nextIndex := n.nextIndex.insert peer (next - 1) }, f'⟩, true))) ∨
    ∃ l' f', Taken n.state.currentTerm l l' m (next - 1) n.commitIndex f f' ∧
      (round cb peer ⟨n, f⟩ now fate = (⟨n, f'⟩, false) ∨
        round cb peer ⟨n, f⟩ now fate = (⟨n.acknowledged peer m.length, f'⟩, true)) := by
  rw [hn.round_append hnext hlt]
  rcases call_cases fate f (·.handleAppendEntries cb now (request n m next)) with
    hcall | hcall | ⟨resp, hok, hcall⟩
  · rw [hcall]
    exact .inl rfl
  · rw [hcall]
    rcases @taken σ cb l m n f peer now next hn hf hcommit hlt hlast with
      ⟨hpos, hdiffers, f', hlog, hsame, hears, heq⟩ | ⟨⟨l', htaken⟩, -⟩
    · refine .inr (.inl ⟨hpos, hdiffers, f', hlog, hsame, hears, .inl ?_⟩)
      rw [heq]
    · exact .inr (.inr ⟨l', _, htaken, .inl rfl⟩)
  · rw [hcall]
    rcases @taken σ cb l m n f peer now next hn hf hcommit hlt hlast with
      ⟨hpos, hdiffers, f', hlog, hsame, hears, heq⟩ | ⟨⟨l', htaken⟩, hresp⟩
    · refine .inr (.inl ⟨hpos, hdiffers, f', hlog, hsame, hears, .inr ?_⟩)
      rw [heq] at hok ⊢
      obtain rfl := Except.ok.inj hok
      dsimp only
      rw [hn.appendReply_refused (show (⟨n.state.currentTerm, false, 0⟩ :
        AppendEntriesResponse).term ≤ n.state.currentTerm from le_rfl) rfl hnext hpos]
    · obtain ⟨hsuccess, hterm⟩ := hresp resp hok
      refine .inr (.inr ⟨l', _, htaken, .inr ?_⟩)
      dsimp only
      rw [hn.appendReply_success hterm.le hsuccess, hmatched, Option.getD_some,
        show max (next - 1 + (m.length - (next - 1))) matched = m.length by omega]

lemma snapshot_round (hbehind : next ≤ n.log.snapshotIndex)
    (hle : f.commitIndex ≤ n.lastApplied) (hagree : f.commitIndex = n.lastApplied →
      termOf l n.lastApplied = termOf m n.lastApplied) :
    round cb peer ⟨n, f⟩ now fate = (⟨n, f⟩, false) ∨
    ∃ l' f', At n.state.currentTerm l' n.lastApplied (termOf m n.lastApplied) f' ∧
      (round cb peer ⟨n, f⟩ now fate = (⟨n, f'⟩, false) ∨
        round cb peer ⟨n, f⟩ now fate =
          (⟨n.acknowledged peer n.lastApplied, f'⟩, true)) := by
  obtain ⟨⟨l', hat⟩, hresp⟩ := @adopts σ cb l m n f now hf hle hagree
  rw [hn.round_snapshot hnext hbehind]
  rcases call_cases fate f (handleInstallSnapshot cb now · (snapshotRequest cb n m)) with
    hcall | hcall | ⟨resp, hok, hcall⟩
  · rw [hcall]
    exact .inl rfl
  · rw [hcall]
    exact .inr ⟨l', _, hat, .inl rfl⟩
  · rw [hcall]
    refine .inr ⟨l', _, hat, .inr ?_⟩
    dsimp only
    rw [hn.snapshotReply (hresp resp hok).le]

end

lemma equal_taken (hsnap : next - 1 ≤ f.log.snapshotIndex →
      termOf l f.log.snapshotIndex = termOf m f.log.snapshotIndex)
    (h : Taken n.state.currentTerm l l' m (next - 1) n.commitIndex f f') :
    Equal l' m (max f'.log.snapshotIndex (next - 1)) m.length := by
  intro i hlo hhi
  have hgrows := h.snapshot
  rcases Nat.lt_or_ge f.log.snapshotIndex i with hlt | hge
  · rcases Nat.lt_or_eq_of_le (le_of_max_le_right hlo) with hbehind | rfl
    · exact h.new i hbehind hlt hhi
    · rw [h.old _ (.inl le_rfl)]
      rcases h.starts with hzero | ⟨-, hterm⟩
      · omega
      · exact hterm
  · obtain rfl : i = f.log.snapshotIndex := by omega
    rw [h.old _ (.inr le_rfl)]
    exact hsnap (by omega)

section

variable (hn : Leads m peer n)
include hn

/-- What the follower committed before it took the log, and the leader has, is what it has
committed now. -/
lemma commit_taken (hcommit : f.commitIndex ≤ p) (happlied : n.lastApplied ≤ p) {prev : ℕ}
    (h : Taken n.state.currentTerm l l' m prev n.commitIndex f f') : f'.commitIndex ≤ p := by
  have hmax := h.commit
  have happlied' := hn.applied
  omega

lemma Fits.taken (h : Fits l m n.lastApplied f p)
    (htaken : Taken n.state.currentTerm l l' m p n.commitIndex f f') :
    Fits l' m n.lastApplied f' p where
  applied_le := h.applied_le
  le_length := h.le_length
  commit_le := commit_taken hn h.commit_le h.applied_le htaken
  term := (htaken.old p (.inl le_rfl)).trans h.term

lemma fits_length (hcommit : f.commitIndex ≤ m.length) (hlast : next ≤ m.length + 1)
    (hsnap : next - 1 ≤ f.log.snapshotIndex →
      termOf l f.log.snapshotIndex = termOf m f.log.snapshotIndex)
    (h : Taken n.state.currentTerm l l' m (next - 1) n.commitIndex f f') :
    Fits l' m n.lastApplied f' m.length where
  applied_le := hn.applied_le
  le_length := le_rfl
  commit_le := commit_taken hn hcommit hn.applied_le h
  term := by
    have hle := commit_taken hn hcommit hn.applied_le h
    have hsnap' := h.hears.snapshot_commit
    exact equal_taken hsnap h m.length (max_le (by omega) (by omega)) le_rfl

end

lemma Phase.boundary_eq (h : Phase l m boundary applied f next) (hf : Hears l term f)
    (hcommit : f.commitIndex ≤ m.length) (hle : next - 1 ≤ f.log.snapshotIndex) :
    termOf l f.log.snapshotIndex = termOf m f.log.snapshotIndex := by
  have hsnap := hf.snapshot_commit
  cases h with
  | above hlt heq => exact heq _ le_rfl hsnap
  | below hle' hcommit' heq => exact heq _ le_rfl hsnap
  | taken heq hcommit' => exact heq _ (max_le le_rfl hle) (by omega)

lemma Phase.commit_le (h : Phase l m boundary applied f next) (hle : next ≤ boundary)
    (happlied : boundary ≤ applied) : f.commitIndex ≤ applied := by
  cases h with
  | above hlt heq => omega
  | below hle' hcommit heq => exact hcommit
  | taken heq hcommit => omega

lemma Phase.agrees (h : Phase l m boundary applied f next) (hf : Hears l term f)
    (hle : next ≤ boundary) (happlied : boundary ≤ applied) (hlen : applied ≤ m.length)
    (hsame : f.commitIndex = applied) : termOf l applied = termOf m applied := by
  have hsnap := hf.snapshot_commit
  cases h with
  | above hlt heq => omega
  | below hle' hcommit heq => exact heq _ (by omega) hsame.ge
  | taken heq hcommit => exact heq _ (max_le (by omega) (by omega)) hlen

/-- After a refusal the leader is still above what the follower has committed, or the follower
has compacted what it took. -/
lemma Phase.refused (h : Phase l m boundary applied f next) (hf : Hears l term f)
    (hlt : boundary < next) (hpos : 1 < next) (hlast : next ≤ m.length + 1)
    (hdiffers : ¬ (f.log.snapshotIndex ≤ next - 1 ∧
      termOf l (next - 1) = termOf m (next - 1))) :
    Phase l m boundary applied f (next - 1) := by
  have hsnap := hf.snapshot_commit
  cases h with
  | above hlt' heq =>
    refine .above ?_ heq
    by_contra hge
    have hsame : f.commitIndex = next - 1 := by omega
    exact hdiffers ⟨by omega, heq _ (by omega) hsame.ge⟩
  | below hle hcommit heq => omega
  | taken heq hcommit =>
    have hbelow : next - 1 < f.log.snapshotIndex := by
      by_contra hge
      have hge : f.log.snapshotIndex ≤ next - 1 := Nat.le_of_not_lt hge
      exact hdiffers ⟨hge, heq _ (max_le hge le_rfl) (by omega)⟩
    refine .taken ?_ (.inr (by omega))
    rw [max_eq_left (by omega)]
    rwa [max_eq_left (by omega)] at heq

lemma Phase.congr (h : Phase l m boundary applied f next) (hlog : f'.log = f.log)
    (hcommit : f'.commitIndex = f.commitIndex) : Phase l m boundary applied f' next := by
  cases h with
  | above hlt heq => exact .above (by omega) (by rwa [hlog, hcommit])
  | below hle hle' heq => exact .below hle (by omega) (by rwa [hlog, hcommit])
  | taken heq hle => exact .taken (by rwa [hlog]) (by rwa [hcommit])

lemma Phase.of_taken (h : Phase l m boundary n.lastApplied f next)
    (hn : Leads m peer n) (hf : Hears l term f) (hcommit : f.commitIndex ≤ m.length)
    (hlt : boundary < next)
    (htaken : Taken n.state.currentTerm l l' m (next - 1) n.commitIndex f f') :
    Phase l' m boundary n.lastApplied f' next := by
  refine .taken (equal_taken (h.boundary_eq hf hcommit) htaken) ?_
  have hmax := htaken.commit
  have happlied := hn.applied
  cases h with
  | above hlt' heq => omega
  | below hle hcommit' heq => omega
  | taken heq hcommit' => omega

/-! ### Steps -/

/-- The answers left after a round. -/
def left (k : ℕ) (answered : Bool) : ℕ := if answered then k - 1 else k

lemma fits_step (hn : Leads m peer n) (hf : Hears l n.state.currentTerm f)
    (hnext : n.nextIndex.find peer = some (p + 1))
    (hmatched : n.matchIndex.find peer = some matched) (hle : matched ≤ m.length)
    (h : Fits l m n.lastApplied f p) :
    ∃ l' f', Hears l' n.state.currentTerm f' ∧ f'.commitIndex ≤ m.length ∧
      ((round cb peer ⟨n, f⟩ now fate = (⟨n, f'⟩, false) ∧
        Fits l' m n.lastApplied f' p) ∨
        (round cb peer ⟨n, f⟩ now fate = (⟨n.acknowledged peer m.length, f'⟩, true) ∧
          Fits l' m n.lastApplied f' m.length)) := by
  have hcommit := h.commit_le.trans h.le_length
  have hsnap := hf.snapshot_commit
  have hfits := h.commit_le
  have hbehind := h.applied_le
  have hlen := h.le_length
  have hboundary := hn.snapshot_le
  rcases @append_round σ cb l m n f peer now (p + 1) matched fate hn hf hnext hcommit hmatched hle
    (by omega) (by omega) with heq | ⟨-, hdiffers, -⟩ | ⟨l', f', htaken, heq | heq⟩
  · exact ⟨l, f, hf, hcommit, .inl ⟨heq, h⟩⟩
  · exact absurd ⟨by omega, h.term⟩ hdiffers
  · exact ⟨l', f', htaken.hears, commit_taken hn hcommit hn.applied_le htaken,
      .inl ⟨heq, h.taken hn htaken⟩⟩
  · refine ⟨l', f', htaken.hears, commit_taken hn hcommit hn.applied_le htaken,
      .inr ⟨heq, ?_⟩⟩
    refine fits_length hn hcommit (by omega) (fun hback => ?_) htaken
    have hsame : f.log.snapshotIndex = p := by omega
    rw [hsame]
    exact h.term

/-- While the leader searches, an answer moves its next index down, or a snapshot brings the
follower to where it takes what it is sent. -/
lemma search_step (hn : Leads m peer n) (hf : Hears l n.state.currentTerm f)
    (hcommit : f.commitIndex ≤ m.length) (hnext : n.nextIndex.find peer = some next)
    (hmatched : n.matchIndex.find peer = some matched) (hle : matched ≤ m.length)
    (hlast : next ≤ m.length + 1) (hk : next + 2 ≤ k)
    (h : Phase l m n.log.snapshotIndex n.lastApplied f next) (hterm' : n.state.currentTerm = term) :
    Tracks m peer term (left k (round cb peer ⟨n, f⟩ now fate).2)
      (round cb peer ⟨n, f⟩ now fate).1 := by
  have happlied := hn.applied_le
  rcases Nat.lt_or_ge n.log.snapshotIndex next with hlt | hge
  · rcases @append_round σ cb l m n f peer now next matched fate hn hf hnext hcommit hmatched hle
      hlast hlt with heq |
        ⟨hpos, hdiffers, f', hlog, hsame, hears, heq | heq⟩ | ⟨l', f', htaken, heq | heq⟩
    · rw [heq]
      exact ⟨hn, hterm', hcommit, l, next, matched, hf, hnext, hmatched, hlast,
        hle, .searches hk h⟩
    · rw [heq]
      exact ⟨hn, hterm', hsame.le.trans hcommit, l, next, matched, hears, hnext, hmatched, hlast,
        hle, .searches hk (h.congr hlog hsame)⟩
    · rw [heq]
      refine ⟨hn.noted _ _, hterm', hsame.le.trans hcommit, l, next - 1, matched, hears,
        OrdMap.find_insert_self .., hmatched, by omega, hle, .searches ?_ ?_⟩
      · simp only [left, if_true]
        omega
      · exact (h.refused hf hlt hpos hlast hdiffers).congr hlog hsame
    · rw [heq]
      exact ⟨hn, hterm', commit_taken hn hcommit happlied htaken, l', next, matched, htaken.hears,
        hnext, hmatched, hlast, hle, .searches hk (h.of_taken hn hf hcommit hlt htaken)⟩
    · rw [heq]
      have hdone := fits_length hn hcommit hlast (h.boundary_eq hf hcommit) htaken
      exact ⟨hn.noted _ _, hterm', commit_taken hn hcommit happlied htaken, l', m.length + 1,
        m.length, htaken.hears, OrdMap.find_insert_self .., OrdMap.find_insert_self .., le_rfl,
        le_rfl, .done rfl rfl hdone⟩
  · have hbehind := h.commit_le hge hn.snapshot_le
    rcases @snapshot_round σ cb l m n f peer now next fate hn hf hnext hge hbehind
      (h.agrees hf hge hn.snapshot_le happlied) with heq |
        ⟨l', f', ⟨hears, hcommit', hsnap', hterm⟩, heq | heq⟩
    · rw [heq]
      exact ⟨hn, hterm', hcommit, l, next, matched, hf, hnext, hmatched, hlast,
        hle, .searches hk h⟩
    · rw [heq]
      refine ⟨hn, hterm', hcommit'.le.trans happlied, l', next, matched, hears, hnext, hmatched,
        hlast, hle, .searches hk (.below hge hcommit'.le fun i hlo hhi => ?_)⟩
      obtain rfl : i = n.lastApplied := by
        rw [hsnap'] at hlo
        rw [hcommit'] at hhi
        omega
      exact hterm
    · rw [heq]
      obtain ⟨k', hk'⟩ : ∃ k', k - 1 = k' + 1 := ⟨k - 2, by omega⟩
      refine ⟨hn.noted _ _, hterm', hcommit'.le.trans happlied, l', n.lastApplied + 1,
        n.lastApplied, hears, OrdMap.find_insert_self .., OrdMap.find_insert_self .., by omega,
        happlied, ?_⟩
      simp only [left, if_true, hk']
      exact .fits rfl ⟨le_rfl, happlied, hcommit'.le, hterm⟩

/-- **An answer brings the leader nearer**, and a round without one loses nothing. -/
theorem Tracks.round {s : Pair σ} (h : Tracks m peer term k s) :
    Tracks m peer term (left k (round cb peer s now fate).2) (round cb peer s now fate).1 := by
  obtain ⟨n, f⟩ := s
  obtain ⟨hn, hterm', hcommit, l, next, matched, hf, hnext, hmatched, hlast, hle, hwithin⟩ := h
  dsimp only at hn hterm' hcommit hf hnext hmatched hwithin
  cases hwithin with
  | done hnext' hmatched' hfits =>
    rw [hnext'] at hnext
    obtain ⟨l', f', hears, hcommit', ⟨heq, hfits'⟩ | ⟨heq, hfits'⟩⟩ :=
      @fits_step σ cb l m n f peer now matched m.length fate hn hf hnext hmatched hle hfits
    · rw [heq]
      exact ⟨hn, hterm', hcommit', l', _, matched, hears, hnext, hmatched, le_rfl, hle,
        .done rfl hmatched' hfits'⟩
    · rw [heq]
      exact ⟨hn.noted _ _, hterm', hcommit', l', m.length + 1, m.length, hears,
        OrdMap.find_insert_self .., OrdMap.find_insert_self .., le_rfl, le_rfl,
        .done rfl rfl hfits'⟩
  | @fits k p hnext' hfits =>
    rw [hnext'] at hnext hlast
    obtain ⟨l', f', hears, hcommit', ⟨heq, hfits'⟩ | ⟨heq, hfits'⟩⟩ :=
      @fits_step σ cb l m n f peer now matched p fate hn hf hnext hmatched hle hfits
    · rw [heq]
      exact ⟨hn, hterm', hcommit', l', _, matched, hears, hnext, hmatched, hlast, hle,
        .fits rfl hfits'⟩
    · rw [heq]
      exact ⟨hn.noted _ _, hterm', hcommit', l', m.length + 1, m.length, hears,
        OrdMap.find_insert_self .., OrdMap.find_insert_self .., le_rfl, le_rfl,
        .done rfl rfl hfits'⟩
  | searches hk hphase =>
    exact search_step hn hf hcommit hnext hmatched hle hlast hk hphase hterm'

lemma Tracks.other {s : Pair σ} (h : Tracks m peer term k s) {e : Event}
    (he : Elsewhere peer term e) : Tracks m peer term k (act cb peer s (.other e)).1 := by
  obtain ⟨n, f⟩ := s
  obtain ⟨hn, hterm, hcommit, l, next, matched, hf, hnext, hmatched, hlast, hle, hwithin⟩ := h
  dsimp only at hn hterm hcommit hf hnext hmatched hwithin
  obtain ⟨nextIndex, matchIndex, inFlight, heq, hsame, hsame', hfree⟩ :=
    @Leads.elsewhere σ cb m n peer hn e (by rw [hterm]; exact he)
  simp only [act, heq, Option.map_some, Option.getD_some]
  exact ⟨⟨hn.role, hn.holds, hn.snapshot_le, hn.applied, hn.applied_le, hn.positive, hn.earlier,
    hn.known, hfree⟩, hterm, hcommit, l, next, matched, hf, hsame.trans hnext,
    hsame'.trans hmatched, hlast, hle, hwithin⟩

lemma Tracks.rounds {s : Pair σ} (h : Tracks m peer term k s) {acts : List Act}
    (hacts : ∀ e, .other e ∈ acts → Elsewhere peer term e) :
    Tracks m peer term (k - (rounds cb peer s acts).2) (rounds cb peer s acts).1 := by
  induction acts generalizing s k with
  | nil => exact h
  | cons a acts ih =>
    have hstep : Tracks m peer term (left k (act cb peer s a).2) (act cb peer s a).1 := by
      cases a with
      | round now fate => exact h.round
      | other e => exact h.other (hacts e (List.mem_cons_self ..))
    unfold Exchange.rounds
    generalize act cb peer s a = x at hstep ⊢
    obtain ⟨s', answered⟩ := x
    have hrest := ih hstep fun e he => hacts e (List.mem_cons_of_mem _ he)
    dsimp only at hrest ⊢
    generalize Exchange.rounds cb peer s' acts = y at hrest ⊢
    obtain ⟨s'', j⟩ := y
    cases answered with
    | false => exact hrest
    | true =>
      simp only [left, if_true] at hrest ⊢
      rwa [show k - (j + 1) = k - 1 - j by omega]

/-- The leader has something to send, and a round whose messages arrive is answered unless the
follower throws. -/
lemma Tracks.answered {s : Pair σ} (h : Tracks m peer term k s) :
    ∃ req, sent cb peer s.leader = some req ∧
      ((Exchange.round cb peer s now .answered).2 = true ↔ Answers cb now s.follower req) := by
  obtain ⟨n, f⟩ := s
  obtain ⟨hn, -, -, l, next, matched, -, hnext, -, -, -, -⟩ := h
  dsimp only at hn hnext
  rcases Nat.lt_or_ge n.log.snapshotIndex next with hlt | hge
  · refine ⟨.inl (request n m next), hn.sent_append hnext hlt, ?_⟩
    rw [hn.round_append hnext hlt]
    simp only [call, Answers]
    cases (f.handleAppendEntries cb now (request n m next)).2 with
    | error e => simp [Except.toOption]
    | ok resp => simp [Except.toOption]
  · refine ⟨.inr (snapshotRequest cb n m), hn.sent_snapshot hnext hge, ?_⟩
    rw [hn.round_snapshot hnext hge]
    simp only [call, Answers]
    cases (handleInstallSnapshot cb now f (snapshotRequest cb n m)).2 with
    | error e => simp [Except.toOption]
    | ok resp => simp [Except.toOption]

/-! ### Convergence -/

/-- A candidate in a term behind which its log is, as a run leaves it: what it has committed is
applied. -/
structure Stands (m : List LogEntry) (c : Node σ) : Prop where
  sane : Sane m c
  snapshot_le : c.log.snapshotIndex ≤ c.lastApplied
  applied : c.commitIndex ≤ c.lastApplied
  positive : ∀ i, 0 < i → i ≤ m.length → 0 < termOf m i
  earlier : ∀ i, termOf m i < c.state.currentTerm

/-- A log with these terms. -/
def ofTerms (terms : List ℕ) : List LogEntry := terms.mapIdx fun i term => ⟨i + 1, term, []⟩

/-- The log of a candidate in term 4, which has compacted the first five entries. -/
def candidate : Node Unit := construct 1 ⟨4, some 1⟩
  ⟨5, 1, (ofTerms [1, 1, 1, 1, 1, 2, 2]).drop 5, 5⟩
  ⟨OrdMap.empty.insert 2 ⟨[], 0⟩, true, ⟨[], 0⟩⟩ ()

end DistDB.Convergence
